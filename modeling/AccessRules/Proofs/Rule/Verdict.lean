import Mathlib.Data.List.Perm.Basic
import AccessRules.Proofs.Rule.Meaning
import AccessRules.Proofs.Rule.NormalForm
import AccessRules.Proofs.Rule.Rows

/-!
# Normal forms keep the verdict

What a part contributes to a node has, under the connective of the node, the verdict
of the part. So a node has the same verdict when its parts are replaced by what they
contribute, however empty or lone they have become.
-/

namespace AccessRules

/-!
## Verdicts from values

A connective gives no verdict on no values at all. Otherwise its verdict depends, as
its value does, neither on the order of the values nor on how they are grouped.
-/

namespace Connective

def verdictOf? (connective : Connective) (values : List Bool) : Option Bool :=
  if values.isEmpty then none else some (connective.holds values)

theorem verdictOf?_eq_iff {connective : Connective} {values others : List Bool} :
    connective.verdictOf? values = connective.verdictOf? others ↔
      (values = [] ↔ others = []) ∧ connective.holds values = connective.holds others := by
  cases values with
  | nil =>
      cases others <;> simp [verdictOf?]
  | cons value rest =>
      cases others <;> simp [verdictOf?]

theorem verdictOf?_of_perm (connective : Connective) {values others : List Bool}
    (h : values.Perm others) : connective.verdictOf? values = connective.verdictOf? others := by
  apply verdictOf?_eq_iff.mpr
  constructor
  · constructor
    · intro hempty
      rw [hempty] at h
      exact h.symm.eq_nil
    · intro hempty
      rw [hempty] at h
      exact h.eq_nil
  · exact connective.holds_of_perm h

theorem verdictOf?_append (connective : Connective) {left right others later : List Bool}
    (hleft : connective.verdictOf? left = connective.verdictOf? others)
    (hright : connective.verdictOf? right = connective.verdictOf? later) :
    connective.verdictOf? (left ++ right) = connective.verdictOf? (others ++ later) := by
  rcases verdictOf?_eq_iff.mp hleft with ⟨hemptyLeft, hholdsLeft⟩
  rcases verdictOf?_eq_iff.mp hright with ⟨hemptyRight, hholdsRight⟩
  apply verdictOf?_eq_iff.mpr
  constructor
  · rw [List.append_eq_nil_iff, List.append_eq_nil_iff, hemptyLeft, hemptyRight]
  · exact connective.holds_append hholdsLeft hholdsRight

/-- Values that are taken together first count like their verdict. -/
theorem verdictOf?_toList {connective : Connective} (h : connective ≠ .not)
    (values : List Bool) :
    connective.verdictOf? (connective.verdictOf? values).toList =
      connective.verdictOf? values := by
  cases values with
  | nil =>
      rfl
  | cons value rest =>
      simp [verdictOf?, holds_single h]

end Connective

namespace Rule

/-!
## The verdict of a node
-/

/-- The values of those operands that have one. -/
def operandValues (assignment : Assignment) (node : Rule) : List Bool :=
  recipientValues assignment node.recipients ++ node.parts.filterMap (verdict? assignment)

theorem verdicts_eq_filterMap (assignment : Assignment) (rules : List Rule) :
    verdicts assignment rules = rules.filterMap (verdict? assignment) := by
  induction rules with
  | nil =>
      rfl
  | cons rule rest ih =>
      rw [verdicts, List.filterMap_cons, ih]
      cases verdict? assignment rule <;> rfl

theorem verdict?_eq (assignment : Assignment) (rule : Rule) :
    rule.verdict? assignment = rule.connective.verdictOf? (rule.operandValues assignment) := by
  cases rule
  rw [verdict?, verdicts_eq_filterMap]
  rfl

/-!
## Rules without a verdict

A rule has no verdict when it mentions nobody, whatever the assignment is.
-/

mutual

theorem isSome_verdict? (assignment : Assignment) :
    (rule : Rule) -> (rule.verdict? assignment).isSome = rule.mentions
  | ⟨connective, recipients, parts⟩ => by
      have hparts := isEmpty_verdicts assignment parts
      cases recipients with
      | nil =>
          rw [verdict?, mentions, <- hparts]
          cases hverdicts : verdicts assignment parts <;> rfl
      | cons recipient rest =>
          rw [verdict?, mentions]
          rfl

theorem isEmpty_verdicts (assignment : Assignment) :
    (rules : List Rule) -> (!(verdicts assignment rules).isEmpty) = mentionsAny rules
  | [] => rfl
  | rule :: rest => by
      have hrule := isSome_verdict? assignment rule
      have hrest := isEmpty_verdicts assignment rest
      rw [verdicts, mentionsAny, <- hrule, <- hrest]
      cases rule.verdict? assignment <;> rfl

end

mutual

theorem mentions_eq_false_iff :
    (rule : Rule) -> (rule.mentions = false ↔ rule.allRecipients = [])
  | ⟨connective, recipients, parts⟩ => by
      have hparts := mentionsAny_eq_false_iff parts
      rw [mentions, allRecipients_eq, Bool.or_eq_false_iff, hparts, List.append_eq_nil_iff]
      simp

theorem mentionsAny_eq_false_iff :
    (rules : List Rule) -> (mentionsAny rules = false ↔ rules.flatMap allRecipients = [])
  | [] => by
      simp [mentionsAny]
  | rule :: rest => by
      rw [mentionsAny, Bool.or_eq_false_iff, mentions_eq_false_iff rule,
        mentionsAny_eq_false_iff rest, List.flatMap_cons, List.append_eq_nil_iff]

end

theorem verdict?_eq_none_iff (assignment : Assignment) (rule : Rule) :
    rule.verdict? assignment = none ↔ rule.allRecipients = [] := by
  rw [<- mentions_eq_false_iff, <- isSome_verdict? assignment, Option.isSome_eq_false_iff,
    Option.isNone_iff_eq_none]

/-!
## The verdict of a contribution
-/

theorem verdict?_of_isEmpty (assignment : Assignment) {part : Rule}
    (h : part.isEmpty = true) : part.verdict? assignment = none := by
  rw [isEmpty_eq_true_iff] at h
  rw [verdict?_eq, operandValues, h.1, h.2]
  rfl

theorem verdictOf?_brought (assignment : Assignment) (connective : Connective)
    (incoming : Rule) :
    connective.verdictOf? ((brought connective incoming).operandValues assignment) =
      connective.verdictOf? (incoming.verdict? assignment).toList := by
  cases habsorbs : connective.absorbs incoming.connective with
  | true =>
      rcases Connective.absorbs_iff.mp habsorbs with ⟨hsame, hbinary⟩
      rw [brought_of_absorbs habsorbs, verdict?_eq, <- hsame, Connective.verdictOf?_toList hbinary]
      rfl
  | false =>
      have hvalues : operandValues assignment ⟨connective, [], [incoming]⟩ =
          (incoming.verdict? assignment).toList := by
        cases hverdict : incoming.verdict? assignment <;>
          simp [operandValues, recipientValues, hverdict]
      rw [brought_of_not_absorbs habsorbs, hvalues]

theorem verdictOf?_contribution (assignment : Assignment) (connective : Connective)
    (part : Rule) :
    connective.verdictOf? ((contribution connective part).operandValues assignment) =
      connective.verdictOf? (part.verdict? assignment).toList := by
  rcases contribution_or_brought connective part with
    ⟨hempty, hbrought⟩ | ⟨recipient, hlone, hbrought⟩ | ⟨-, -, hbrought⟩
  · rw [hbrought, verdict?_of_isEmpty assignment hempty]
    rfl
  · rcases loneRecipient?_eq_some hlone with ⟨hbinary, hrecipients, hparts⟩
    have hverdict : part.verdict? assignment = some (assignment recipient.identity) := by
      rw [verdict?_eq, operandValues, hrecipients, hparts]
      exact congrArg some (Connective.holds_single hbinary _)
    rw [hbrought, hverdict]
    rfl
  · rw [hbrought, verdictOf?_brought]

theorem verdictOf?_contributions (assignment : Assignment) (connective : Connective)
    (parts : List Rule) :
    connective.verdictOf?
        (parts.flatMap fun part => (contribution connective part).operandValues assignment) =
      connective.verdictOf? (parts.filterMap (verdict? assignment)) := by
  induction parts with
  | nil =>
      rfl
  | cons part rest ih =>
      have hpart := verdictOf?_contribution assignment connective part
      have hsplit := connective.verdictOf?_append hpart ih
      have hvalues : (part.verdict? assignment).toList ++ rest.filterMap (verdict? assignment) =
          (part :: rest).filterMap (verdict? assignment) := by
        rw [List.filterMap_cons]
        cases part.verdict? assignment <;> rfl
      rw [List.flatMap_cons, hsplit, hvalues]

/-!
## The verdict of a normal form
-/

theorem verdict?_collapse (assignment : Assignment) (node : Rule) (parts : List Rule) :
    (collapse node parts).verdict? assignment = { node with parts }.verdict? assignment := by
  have hcontributions := verdictOf?_contributions assignment node.connective parts
  rw [verdict?_eq, verdict?_eq]
  show node.connective.verdictOf? _ = node.connective.verdictOf? _
  refine Eq.trans ?_ (node.connective.verdictOf?_append rfl hcontributions)
  -- All contributed recipients stand in front of all contributed parts.
  apply node.connective.verdictOf?_of_perm
  rw [operandValues, recipients_collapse, parts_collapse, recipientValues, List.map_append,
    List.append_assoc, List.map_flatMap, List.filterMap_flatMap]
  exact (List.flatMap_append_perm parts _ _).append_left _

mutual

theorem verdict?_normalForm (assignment : Assignment) :
    (rule : Rule) -> rule.normalForm.verdict? assignment = rule.verdict? assignment
  | ⟨connective, recipients, parts⟩ => by
      rw [normalForm_eq, verdict?_collapse, verdict?_eq, verdict?_eq]
      simp only [operandValues, filterMap_verdict?_normalForm assignment parts]

theorem filterMap_verdict?_normalForm (assignment : Assignment) :
    (rules : List Rule) ->
      (rules.map normalForm).filterMap (verdict? assignment) =
        rules.filterMap (verdict? assignment)
  | [] => rfl
  | rule :: rest => by
      rw [List.map_cons, List.filterMap_cons, List.filterMap_cons,
        verdict?_normalForm assignment rule, filterMap_verdict?_normalForm assignment rest]

end

/-- Whatever the shape of a rule and whoever applies, the normal form says the same
as the rule, and it says nothing just when the rule mentions nobody. -/
theorem normalForm_keeps_verdict (rule : Rule) (assignment : Assignment) :
    rule.normalForm.verdict? assignment = rule.verdict? assignment ∧
      (rule.verdict? assignment = none ↔ rule.allRecipients = []) :=
  ⟨verdict?_normalForm assignment rule, verdict?_eq_none_iff assignment rule⟩

end Rule
end AccessRules
