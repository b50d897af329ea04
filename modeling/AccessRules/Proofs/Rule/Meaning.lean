import AccessRules.Rule.Meaning

/-!
# Values of nodes

The value of a node depends on the values of its operands alone, and neither on
their order nor on how they are grouped.
-/

namespace AccessRules

/-!
## Values under a connective

The order of the values does not matter, and values may be taken together before
the others are looked at.
-/

namespace Connective

theorem holds_of_perm (connective : Connective) {values others : List Bool}
    (h : values.Perm others) : connective.holds values = connective.holds others := by
  cases connective with
  | and =>
      exact h.all_eq
  | or =>
      exact h.any_eq
  | not =>
      exact congrArg (fun value => !value) h.any_eq

theorem holds_append (connective : Connective) {left right others later : List Bool}
    (hleft : connective.holds left = connective.holds others)
    (hright : connective.holds right = connective.holds later) :
    connective.holds (left ++ right) = connective.holds (others ++ later) := by
  cases connective with
  | and =>
      simp only [holds, List.all_append] at hleft hright ⊢
      rw [hleft, hright]
  | or =>
      simp only [holds, List.any_append] at hleft hright ⊢
      rw [hleft, hright]
  | not =>
      simp only [holds, List.any_append, Bool.not_inj_iff] at hleft hright ⊢
      rw [hleft, hright]

theorem holds_single {connective : Connective} (h : connective ≠ .not) (value : Bool) :
    connective.holds [value] = value := by
  cases connective with
  | and =>
      simp [holds]
  | or =>
      simp [holds]
  | not =>
      exact absurd rfl h

end Connective

namespace Rule

/-!
## The value of a node
-/

theorem holdsEach_eq_map (assignment : Assignment) (rules : List Rule) :
    holdsEach assignment rules = rules.map (holds assignment) := by
  induction rules with
  | nil =>
      rfl
  | cons rule rest ih =>
      rw [holdsEach, ih, List.map_cons]

theorem holds_eq (assignment : Assignment) (rule : Rule) :
    rule.holds assignment =
      rule.connective.holds
        (recipientValues assignment rule.recipients ++ rule.parts.map (holds assignment)) := by
  cases rule
  rw [holds, holdsEach_eq_map]

end Rule

end AccessRules
