import AccessRules.Proofs.Rule.Rows
import AccessRules.Proofs.Rule.Size

/-!
# Normalising keeps every recipient

A part contributes the recipients that it holds, on whatever level they come to stand. So
the normal form has every recipient of the rule, as often as the rule has it and with the
same label. A normal rule without recipients has no parts either: what is dropped on the way
holds no recipient anywhere below.
-/

namespace AccessRules
namespace Rule

/-!
## Recipients that a part contributes
-/

theorem allRecipients_of_isEmpty {rule : Rule} (h : rule.isEmpty = true) :
    rule.allRecipients = [] := by
  rw [isEmpty_eq_true_iff] at h
  rw [allRecipients_eq, h.1, h.2]
  rfl

theorem allRecipients_brought (connective : Connective) (incoming : Rule) :
    (brought connective incoming).allRecipients = incoming.allRecipients := by
  cases habsorbs : connective.absorbs incoming.connective with
  | true =>
      rw [brought_of_absorbs habsorbs, allRecipients_eq, allRecipients_eq incoming]
  | false =>
      rw [brought_of_not_absorbs habsorbs, allRecipients_eq]
      exact List.flatMap_singleton allRecipients incoming

theorem allRecipients_contribution (connective : Connective) (part : Rule) :
    (contribution connective part).allRecipients = part.allRecipients := by
  rcases contribution_or_brought connective part with
    ⟨hempty, hbrought⟩ | ⟨recipient, hlone, hbrought⟩ | ⟨-, -, hbrought⟩
  · rw [hbrought, allRecipients_of_isEmpty hempty]
    exact allRecipients_of_isEmpty rfl
  · rcases loneRecipient?_eq_some hlone with ⟨-, hrecipients, hparts⟩
    rw [hbrought, allRecipients_eq, allRecipients_eq part, hrecipients, hparts]
    rfl
  · rw [hbrought, allRecipients_brought]

theorem allRecipients_collapse_perm (node : Rule) (parts : List Rule) :
    (collapse node parts).allRecipients.Perm
      (node.recipients ++ parts.flatMap allRecipients) := by
  have hbrought : parts.flatMap allRecipients =
      parts.flatMap fun part =>
        (contribution node.connective part).recipients ++
          (contribution node.connective part).parts.flatMap allRecipients := by
    simp only [<- allRecipients_eq, allRecipients_contribution]
  rw [allRecipients_eq, recipients_collapse, parts_collapse, List.append_assoc,
    List.flatMap_assoc, hbrought]
  -- All contributed recipients stand in front of all contributed parts.
  exact (List.flatMap_append_perm parts _ _).append_left _

/-!
## Recipients of a normal form
-/

mutual

theorem allRecipients_normalForm_perm :
    (rule : Rule) -> rule.normalForm.allRecipients.Perm rule.allRecipients
  | ⟨connective, recipients, parts⟩ => by
      rw [normalForm_eq, allRecipients_eq ⟨connective, recipients, parts⟩]
      exact (allRecipients_collapse_perm _ _).trans
        ((flatMap_allRecipients_normalForm_perm parts).append_left recipients)

theorem flatMap_allRecipients_normalForm_perm :
    (rules : List Rule) ->
      ((rules.map normalForm).flatMap allRecipients).Perm (rules.flatMap allRecipients)
  | [] => List.Perm.refl _
  | rule :: rest => by
      rw [List.map_cons, List.flatMap_cons, List.flatMap_cons]
      exact (allRecipients_normalForm_perm rule).append
        (flatMap_allRecipients_normalForm_perm rest)

end

/-!
## Normal rules without recipients
-/

theorem isEmpty_of_isNormal :
    (rule : Rule) -> rule.isNormal = true -> rule.allRecipients = [] -> rule.isEmpty = true
  | ⟨connective, recipients, []⟩, _, hnone => by
      rw [allRecipients_eq, List.append_eq_nil_iff] at hnone
      exact isEmpty_eq_true_iff.mpr ⟨hnone.1, rfl⟩
  | ⟨connective, recipients, part :: rest⟩, hnormal, hnone => by
      rcases isNormal_iff.mp hnormal part List.mem_cons_self with ⟨hstays, hpart⟩
      rw [allRecipients_eq, List.append_eq_nil_iff, List.flatMap_cons,
        List.append_eq_nil_iff] at hnone
      -- A part that may stay is not empty, but this one holds no recipient anywhere.
      have hempty := isEmpty_of_isNormal part hpart hnone.2.1
      rw [(staysIn_iff.mp hstays).1] at hempty
      cases hempty

theorem isEmpty_normalForm_iff (rule : Rule) :
    rule.normalForm.isEmpty = true ↔ rule.allRecipients = [] := by
  constructor
  · intro hempty
    have hperm := allRecipients_normalForm_perm rule
    rw [allRecipients_of_isEmpty hempty] at hperm
    exact hperm.symm.eq_nil
  · intro hnone
    have hperm := allRecipients_normalForm_perm rule
    rw [hnone] at hperm
    exact isEmpty_of_isNormal _ (isNormal_normalForm rule) hperm.eq_nil

theorem connective_normalForm (rule : Rule) : rule.normalForm.connective = rule.connective := by
  rw [normalForm_eq]
  rfl

/-- The normal form has the recipients of the rule, labels and repetitions included, and its
connective. It is no larger and no higher than the rule, and it is empty just when the rule
holds no recipient at all. -/
theorem normalForm_keeps_recipients (rule : Rule) :
    rule.normalForm.allRecipients.Perm rule.allRecipients ∧
      rule.normalForm.connective = rule.connective ∧
        rule.normalForm.nodeCount ≤ rule.nodeCount ∧
          rule.normalForm.height ≤ rule.height ∧
            (rule.normalForm.isEmpty = true ↔ rule.allRecipients = []) :=
  ⟨allRecipients_normalForm_perm rule, connective_normalForm rule,
    (nodeCount_normalForm rule).1, height_normalForm_le rule, isEmpty_normalForm_iff rule⟩

end Rule
end AccessRules
