import AccessRules.Proofs.Expression.Rearrangement
import AccessRules.Proofs.Rule.Matching

/-!
# Equivalent readings

Joining rearranged terms gives equivalent rules, since a node forgets how its
operands were grouped and equivalence forgets their order. With the way back,
two expressions are read as equivalent rules exactly when their terms are
rearrangements of each other.
-/

namespace AccessRules
namespace Expression

/-!
## Equivalent operands
-/

inductive Operand.Equivalent : Operand -> Operand -> Prop where
  | recipient {a b : Recipient} (same : a.identity = b.identity) :
      Equivalent (.recipient a) (.recipient b)
  | rule {a b : Rule} (depth other : Nat) (equivalent : Rule.Equivalent a b) :
      Equivalent (.rule a depth) (.rule b other)

namespace Operand

theorem equivalent_refl (operand : Operand) : operand.Equivalent operand := by
  cases operand with
  | recipient lone =>
      exact Equivalent.recipient rfl
  | rule incoming depth =>
      exact Equivalent.rule depth depth (Rule.equivalent_refl incoming)

theorem equivalent_symm {a b : Operand} (h : a.Equivalent b) : b.Equivalent a := by
  cases h with
  | recipient same =>
      exact Equivalent.recipient same.symm
  | rule depth other equivalent =>
      exact Equivalent.rule other depth (Rule.equivalent_symm equivalent)

theorem equivalent_trans {a b c : Operand} (h : a.Equivalent b) (hlater : b.Equivalent c) :
    a.Equivalent c := by
  cases h with
  | recipient same =>
      cases hlater with
      | recipient sameLater =>
          exact Equivalent.recipient (same.trans sameLater)
  | rule depth other equivalent =>
      cases hlater with
      | rule _ last equivalentLater =>
          exact Equivalent.rule depth last (Rule.equivalent_trans equivalent equivalentLater)

theorem equivalent_asRule {a b : Operand} (h : a.Equivalent b) :
    Rule.Equivalent a.asRule b.asRule := by
  cases h with
  | recipient same =>
      apply Rule.equivalent_mk .or _ (List.Perm.refl []) List.Forall₂.nil
      simp [same]
  | rule depth other equivalent =>
      exact equivalent

/-!
## What equivalent operands bring into a node
-/

theorem recipientsIn_perm {a b : Operand} (h : a.Equivalent b) (connective : Connective) :
    ((a.recipientsIn connective).map Recipient.identity).Perm
      ((b.recipientsIn connective).map Recipient.identity) := by
  cases h with
  | recipient same =>
      simp [recipientsIn, same]
  | rule depth other equivalent =>
      cases equivalent with
      | node others hconnective hrecipients hreordered hpaired =>
          rw [recipientsIn, recipientsIn, hconnective]
          split
          · exact hrecipients
          · exact List.Perm.refl _

theorem partsIn_matched {a b : Operand} (h : a.Equivalent b) (connective : Connective) :
    Rule.Matched (a.partsIn connective) (b.partsIn connective) := by
  cases h with
  | recipient same =>
      exact Rule.matched_of_perm (List.Perm.refl [])
  | rule depth other equivalent =>
      have hwhole := List.Forall₂.cons equivalent List.Forall₂.nil
      rcases Rule.equivalent_iff.mp equivalent with ⟨hconnective, -, hmatched⟩
      rw [partsIn, partsIn, hconnective]
      split
      · exact hmatched
      · exact ⟨_, List.Perm.refl _, hwhole⟩

end Operand

/-!
## Joining equivalent operands
-/

theorem flatMap_recipientsIn_perm (connective : Connective) {operands others : List Operand}
    (h : List.Forall₂ Operand.Equivalent operands others) :
    ((operands.flatMap (Operand.recipientsIn connective)).map Recipient.identity).Perm
      ((others.flatMap (Operand.recipientsIn connective)).map Recipient.identity) := by
  induction h with
  | nil =>
      exact List.Perm.refl _
  | cons hfirst _ ih =>
      rw [List.flatMap_cons, List.flatMap_cons, List.map_append, List.map_append]
      exact (Operand.recipientsIn_perm hfirst connective).append ih

theorem flatMap_partsIn_matched (connective : Connective) {operands others : List Operand}
    (h : List.Forall₂ Operand.Equivalent operands others) :
    Rule.Matched (operands.flatMap (Operand.partsIn connective))
      (others.flatMap (Operand.partsIn connective)) := by
  induction h with
  | nil =>
      exact Rule.matched_of_perm (List.Perm.refl [])
  | cons hfirst _ ih =>
      rw [List.flatMap_cons, List.flatMap_cons]
      exact Rule.matched_append (Operand.partsIn_matched hfirst connective) ih

theorem equivalent_joined (connective : Connective) {operands others : List Operand}
    (h : List.Forall₂ Operand.Equivalent operands others) :
    Rule.Equivalent (joined connective operands).1 (joined connective others).1 := by
  rw [joined_rule, joined_rule]
  exact Rule.equivalent_iff.mpr
    ⟨rfl, flatMap_recipientsIn_perm connective h, flatMap_partsIn_matched connective h⟩

theorem equivalent_joined_of_perm (connective : Connective) {operands others : List Operand}
    (h : operands.Perm others) :
    Rule.Equivalent (joined connective operands).1 (joined connective others).1 := by
  rw [joined_rule, joined_rule]
  exact Rule.equivalent_iff.mpr
    ⟨rfl, (h.flatMap_right _).map _, Rule.matched_of_perm (h.flatMap_right _)⟩

/-!
## Rearranged terms have equivalent operands
-/

theorem equivalent_of_rearranged {a b : Term} (h : Term.Rearranged a b) :
    a.operand.Equivalent b.operand := by
  induction h with
  | refl term =>
      exact Operand.equivalent_refl term.operand
  | symm _ ih =>
      exact Operand.equivalent_symm ih
  | trans _ _ ih ihLater =>
      exact Operand.equivalent_trans ih ihLater
  | negation _ ih =>
      apply Operand.Equivalent.rule
      exact equivalent_joined .not (List.Forall₂.cons ih List.Forall₂.nil)
  | joined junction _ _ ihLeft ihRight =>
      apply Operand.Equivalent.rule
      exact equivalent_joined junction.connective
        (List.Forall₂.cons ihLeft (List.Forall₂.cons ihRight List.Forall₂.nil))
  | swap junction a b =>
      apply Operand.Equivalent.rule
      exact equivalent_joined_of_perm junction.connective (List.Perm.swap _ _ [])
  | regroup junction a b c =>
      rw [Term.operand_regroup]
      exact Operand.equivalent_refl _

/-!
## Which expressions are read as equivalent rules
-/

theorem equivalent_rule_iff {a b : Term} (ha : a.IsUnlabelled) (hb : b.IsUnlabelled) :
    Rule.Equivalent a.rule b.rule ↔ Term.Rearranged a b := by
  constructor
  · intro h
    rcases rearranged_termOf?_rule ha with ⟨s, hs, hrearranged⟩
    rcases rearranged_termOf?_rule hb with ⟨t, ht, hback⟩
    have hspelled : Term.Rearranged s t := rearranged_of_equivalent a.rule b.rule s t h hs ht
    exact hrearranged.trans (hspelled.trans hback.symm)
  · intro h
    exact Operand.equivalent_asRule (equivalent_of_rearranged h)

/-- Each of the texts spells one term, and the rules are found equivalent just when
the terms are rearrangements of each other, which then have the same tokens. -/
theorem isEquivalent_iff_rearranged {limit otherLimit : Nat} {text otherText : String}
    {rule otherRule : Rule} (h : parse limit text = .ok rule)
    (hother : parse otherLimit otherText = .ok otherRule) :
    exists a b,
      (forall term, Term.SpelledBy term text ↔ term = a) ∧
        (forall term, Term.SpelledBy term otherText ↔ term = b) ∧
          (rule.isEquivalent otherRule = true ↔ Term.Rearranged a b) ∧
            (rule.isEquivalent otherRule = true -> a.tokens.Perm b.tokens) := by
  rcases parse_eq_ok_iff.mp h with ⟨a, ha, -, rfl⟩
  rcases parse_eq_ok_iff.mp hother with ⟨b, hb, -, rfl⟩
  have hiff : a.rule.isEquivalent b.rule = true ↔ Term.Rearranged a b := by
    rw [Rule.isEquivalent_iff]
    exact equivalent_rule_iff (Term.isUnlabelled_of_spelledBy ha)
      (Term.isUnlabelled_of_spelledBy hb)
  refine ⟨a, b, Term.spelledBy_iff_eq ha, Term.spelledBy_iff_eq hb, hiff, ?_⟩
  intro hequivalent
  exact (hiff.mp hequivalent).tokens_perm

theorem isEquivalent_iff_rearranged_rotated :
    exists rule otherRule,
      parse 1 "U:a U:b AND U:c AND" = .ok rule ∧
        parse 3 "U:b U:c U:a AND AND" = .ok otherRule ∧
          exists a b,
            (forall term, Term.SpelledBy term "U:a U:b AND U:c AND" ↔ term = a) ∧
              (forall term, Term.SpelledBy term "U:b U:c U:a AND AND" ↔ term = b) ∧
                (rule.isEquivalent otherRule = true ↔ Term.Rearranged a b) ∧
                  (rule.isEquivalent otherRule = true -> a.tokens.Perm b.tokens) := by
  have h : parse 1 "U:a U:b AND U:c AND" =
      .ok ⟨.and, [⟨.user, "a", "U:a", rfl⟩, ⟨.user, "b", "U:b", rfl⟩,
        ⟨.user, "c", "U:c", rfl⟩], []⟩ := rfl
  have hother : parse 3 "U:b U:c U:a AND AND" =
      .ok ⟨.and, [⟨.user, "b", "U:b", rfl⟩, ⟨.user, "c", "U:c", rfl⟩,
        ⟨.user, "a", "U:a", rfl⟩], []⟩ := rfl
  exact ⟨_, _, h, hother, isEquivalent_iff_rearranged h hother⟩

end Expression
end AccessRules
