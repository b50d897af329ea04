import AccessRules.Proofs.Rule.Matching
import AccessRules.Proofs.Rule.Retraction

/-!
# Normal forms of equivalent rules

Equivalent parts contribute equivalently to a node, since what they contribute depends on
how many operands they have and not on which. A node gathers what its parts contribute one
after the other, so equivalent parts in any order make equivalent nodes. With normal forms
in place of some parts, a node has the normal form that it had before.
-/

namespace AccessRules
namespace Rule

/-!
## Equivalent parts have the same shape
-/

theorem length_recipients_of_equivalent {a b : Rule} (h : Equivalent a b) :
    a.recipients.length = b.recipients.length := by
  have hlength := (equivalent_iff.mp h).2.1.length_eq
  rw [List.length_map, List.length_map] at hlength
  exact hlength

theorem length_parts_of_equivalent {a b : Rule} (h : Equivalent a b) :
    a.parts.length = b.parts.length := by
  rcases (equivalent_iff.mp h).2.2 with ⟨reordered, hperm, hpaired⟩
  rw [hpaired.length_eq, hperm.length_eq]

theorem isEmpty_of_equivalent {a b : Rule} (h : Equivalent a b) : a.isEmpty = b.isEmpty := by
  rw [Bool.eq_iff_iff, isEmpty_eq_true_iff, isEmpty_eq_true_iff]
  simp only [<- List.length_eq_zero_iff, length_recipients_of_equivalent h,
    length_parts_of_equivalent h]

theorem loneRecipient?_of_equivalent {part other : Rule} (h : Equivalent part other)
    {recipient : Recipient} (hlone : part.loneRecipient? = some recipient) :
    exists counterpart,
      other.loneRecipient? = some counterpart ∧ recipient.identity = counterpart.identity := by
  rcases loneRecipient?_eq_some hlone with ⟨hbinary, hrecipients, hparts⟩
  rcases equivalent_iff.mp h with ⟨hconnective, hidentities, -⟩
  have hnone : other.parts = [] := by
    rw [<- List.length_eq_zero_iff, <- length_parts_of_equivalent h, hparts]
    rfl
  rw [hrecipients, List.map_singleton, List.singleton_perm] at hidentities
  rcases List.map_eq_singleton_iff.mp hidentities.symm with ⟨counterpart, hother, hidentity⟩
  rw [hconnective] at hbinary
  exact ⟨counterpart, loneRecipient?_of_single hbinary hother hnone, hidentity.symm⟩

/-!
## Contributions of equivalent parts
-/

theorem equivalent_brought (connective : Connective) {incoming other : Rule}
    (h : Equivalent incoming other) :
    Equivalent (brought connective incoming) (brought connective other) := by
  rcases equivalent_iff.mp h with ⟨hconnective, hrecipients, hmatched⟩
  cases habsorbs : connective.absorbs incoming.connective with
  | true =>
      have habsorbsOther := habsorbs
      rw [hconnective] at habsorbsOther
      rw [brought_of_absorbs habsorbs, brought_of_absorbs habsorbsOther]
      exact equivalent_iff.mpr ⟨rfl, hrecipients, hmatched⟩
  | false =>
      have habsorbsOther := habsorbs
      rw [hconnective] at habsorbsOther
      rw [brought_of_not_absorbs habsorbs, brought_of_not_absorbs habsorbsOther]
      exact equivalent_mk connective (List.Perm.refl _) (List.Perm.refl [other])
        (List.Forall₂.cons h List.Forall₂.nil)

theorem equivalent_contribution (connective : Connective) {part other : Rule}
    (h : Equivalent part other) :
    Equivalent (contribution connective part) (contribution connective other) := by
  rcases contribution_or_brought connective part with
    ⟨hempty, hbrought⟩ | ⟨recipient, hlone, hbrought⟩ | ⟨hempty, hlone, hbrought⟩
  · have hother : contribution connective other = bare connective :=
      if_pos (isEmpty_of_equivalent h ▸ hempty)
    rw [hbrought, hother]
    exact equivalent_refl _
  · rcases loneRecipient?_of_equivalent h hlone with ⟨counterpart, hother, hidentity⟩
    rw [hbrought, contribution_of_loneRecipient? connective hother]
    refine equivalent_iff.mpr ⟨rfl, List.Perm.of_eq ?_, matched_of_perm (List.Perm.refl [])⟩
    exact congrArg (fun identity => [identity]) hidentity
  · have hotherLone : other.loneRecipient? = none := by
      apply Option.eq_none_iff_forall_ne_some.mpr
      intro counterpart hcounterpart
      rcases loneRecipient?_of_equivalent (equivalent_symm h) hcounterpart with ⟨_, hpart, -⟩
      rw [hlone] at hpart
      cases hpart
    rw [isEmpty_of_equivalent h] at hempty
    rw [hbrought, contribution_eq_brought connective hempty hotherLone]
    exact equivalent_brought connective h

/-!
## Nodes that gather equivalent contributions
-/

theorem equivalent_append (connective : Connective) {a b later otherLater : Rule}
    (h : Equivalent a b) (hlater : Equivalent later otherLater) :
    Equivalent ⟨connective, a.recipients ++ later.recipients, a.parts ++ later.parts⟩
      ⟨connective, b.recipients ++ otherLater.recipients, b.parts ++ otherLater.parts⟩ := by
  rcases equivalent_iff.mp h with ⟨-, hrecipients, hmatched⟩
  rcases equivalent_iff.mp hlater with ⟨-, hrecipientsLater, hmatchedLater⟩
  refine equivalent_iff.mpr ⟨rfl, ?_, matched_append hmatched hmatchedLater⟩
  rw [List.map_append, List.map_append]
  exact hrecipients.append hrecipientsLater

theorem equivalent_takeIn {node other part another : Rule} (h : Equivalent node other)
    (hpart : Equivalent part another) : Equivalent (node.takeIn part) (other.takeIn another) := by
  rw [takeIn_eq, takeIn_eq, (equivalent_iff.mp h).1]
  exact equivalent_append _ h (equivalent_contribution _ hpart)

theorem equivalent_foldl_takeIn {parts others : List Rule}
    (h : List.Forall₂ Equivalent parts others) {node other : Rule} (hnode : Equivalent node other) :
    Equivalent (parts.foldl takeIn node) (others.foldl takeIn other) := by
  induction h generalizing node other with
  | nil =>
      exact hnode
  | cons hfirst _ ih =>
      exact ih (equivalent_takeIn hnode hfirst)

theorem equivalent_collapse_of_perm (node : Rule) {parts others : List Rule}
    (h : parts.Perm others) : Equivalent (collapse node parts) (collapse node others) := by
  refine equivalent_iff.mpr ⟨rfl, ?_, ?_⟩
  · rw [recipients_collapse, recipients_collapse]
    exact ((h.flatMap_right _).append_left _).map _
  · rw [parts_collapse, parts_collapse]
    exact matched_of_perm (h.flatMap_right _)

theorem equivalent_collapse {node other : Rule} {parts others : List Rule}
    (hconnective : node.connective = other.connective)
    (hrecipients :
      (node.recipients.map Recipient.identity).Perm (other.recipients.map Recipient.identity))
    (h : Matched parts others) : Equivalent (collapse node parts) (collapse other others) := by
  rcases h with ⟨reordered, hperm, hpaired⟩
  have hown : Equivalent ⟨node.connective, node.recipients, []⟩
      ⟨other.connective, other.recipients, []⟩ :=
    equivalent_iff.mpr ⟨hconnective, hrecipients, matched_of_perm (List.Perm.refl [])⟩
  have hgathered := equivalent_foldl_takeIn hpaired hown
  rw [<- collapse_eq_foldl, <- collapse_eq_foldl] at hgathered
  exact equivalent_trans hgathered (equivalent_collapse_of_perm other hperm)

/-!
## Normal forms
-/

mutual

theorem equivalent_normalForm :
    (a : Rule) -> forall b, Equivalent a b -> Equivalent a.normalForm b.normalForm
  | ⟨connective, recipients, parts⟩ => by
      intro b h
      cases h with
      | node others hconnective hrecipients hreordered hpaired =>
          rw [normalForm_eq, normalForm_eq b]
          exact equivalent_collapse hconnective hrecipients
            ⟨others.map normalForm, hreordered.map normalForm,
              forall₂_map_normalForm parts others hpaired⟩

theorem forall₂_map_normalForm :
    (as : List Rule) -> forall bs, PairwiseEquivalent as bs ->
      List.Forall₂ Equivalent (as.map normalForm) (bs.map normalForm)
  | [] => by
      intro bs h
      cases h
      exact List.Forall₂.nil
  | a :: as => by
      intro bs h
      cases h with
      | cons hfirst hlater =>
          exact List.Forall₂.cons (equivalent_normalForm a _ hfirst)
            (forall₂_map_normalForm as _ hlater)

end

/-!
## Normal forms in place of parts
-/

/-- The rule with normal forms in the chosen places among its parts. -/
def normalisePartsAt (chosen : Nat -> Bool) (rule : Rule) : Rule :=
  { rule with
    parts := rule.parts.mapIdx fun place part =>
      if chosen place then part.normalForm else part }

theorem normalForm_normalisePartsAt (chosen : Nat -> Bool) (rule : Rule) :
    (rule.normalisePartsAt chosen).normalForm = rule.normalForm := by
  have hparts : (rule.normalisePartsAt chosen).parts.map normalForm =
      rule.parts.map normalForm := by
    apply List.ext_getElem
    · simp [normalisePartsAt]
    · intro place _ _
      simp only [normalisePartsAt, List.getElem_map, List.getElem_mapIdx]
      split
      · exact normalForm_normalForm _
      · rfl
  rw [normalForm_eq, normalForm_eq rule, hparts]
  rfl

/-- Equivalent rules have equivalent normal forms, and a rule has the normal form that it has
when any of its parts are normalised before. -/
theorem normalForm_respects_equivalence (rule other : Rule) :
    (rule.isEquivalent other = true ->
        rule.normalForm.isEquivalent other.normalForm = true) ∧
      forall chosen, (rule.normalisePartsAt chosen).normalForm = rule.normalForm := by
  constructor
  · intro h
    exact isEquivalent_iff.mpr (equivalent_normalForm rule other (isEquivalent_iff.mp h))
  · intro chosen
    exact normalForm_normalisePartsAt chosen rule

theorem normalForm_respects_equivalence_reordered :
    exists rule other : Rule,
      rule = ⟨.or, [], [⟨.and, [], []⟩, ⟨.and, [⟨.user, "a", "U:a", rfl⟩], []⟩,
          ⟨.or, [.owner], [⟨.and, [.everyone, ⟨.user, "b", "Bob", rfl⟩], []⟩]⟩]⟩ ∧
        other = ⟨.or, [], [
            ⟨.or, [.owner], [⟨.and, [⟨.user, "b", "U:b", rfl⟩, .everyone], []⟩]⟩,
            ⟨.and, [⟨.user, "a", "Ann", rfl⟩], []⟩, ⟨.and, [], []⟩]⟩ ∧
          rule.isEquivalent other = true ∧
            rule.normalForm = ⟨.or, [⟨.user, "a", "U:a", rfl⟩, .owner],
              [⟨.and, [.everyone, ⟨.user, "b", "Bob", rfl⟩], []⟩]⟩ ∧
              other.normalForm = ⟨.or, [.owner, ⟨.user, "a", "Ann", rfl⟩],
                [⟨.and, [⟨.user, "b", "U:b", rfl⟩, .everyone], []⟩]⟩ ∧
                rule.normalForm.isEquivalent other.normalForm = true := by
  let inner : Rule := ⟨.and, [.everyone, ⟨.user, "b", "Bob", rfl⟩], []⟩
  let otherInner : Rule := ⟨.and, [⟨.user, "b", "U:b", rfl⟩, .everyone], []⟩
  let rule : Rule := ⟨.or, [], [⟨.and, [], []⟩, ⟨.and, [⟨.user, "a", "U:a", rfl⟩], []⟩,
    ⟨.or, [.owner], [inner]⟩]⟩
  let other : Rule := ⟨.or, [], [⟨.or, [.owner], [otherInner]⟩,
    ⟨.and, [⟨.user, "a", "Ann", rfl⟩], []⟩, ⟨.and, [], []⟩]⟩
  have hinner : Equivalent inner otherInner :=
    equivalent_mk .and (List.Perm.swap _ _ []) (List.Perm.refl []) List.Forall₂.nil
  have houter : Equivalent ⟨.or, [.owner], [inner]⟩ ⟨.or, [.owner], [otherInner]⟩ :=
    equivalent_mk .or (List.Perm.refl _) (List.Perm.refl _)
      (List.Forall₂.cons hinner List.Forall₂.nil)
  have hlone : Equivalent ⟨.and, [⟨.user, "a", "U:a", rfl⟩], []⟩
      ⟨.and, [⟨.user, "a", "Ann", rfl⟩], []⟩ :=
    equivalent_mk .and (List.Perm.refl _) (List.Perm.refl []) List.Forall₂.nil
  have hequivalent : rule.isEquivalent other = true :=
    isEquivalent_iff.mpr (equivalent_mk .or (List.Perm.refl []) (List.reverse_perm other.parts)
      (List.Forall₂.cons (equivalent_refl _)
        (List.Forall₂.cons hlone (List.Forall₂.cons houter List.Forall₂.nil))))
  refine ⟨rule, other, rfl, rfl, hequivalent, ?_, ?_,
    (normalForm_respects_equivalence rule other).1 hequivalent⟩
  · rw [normalForm, foldUp, foldUpWith, continueFold_root]
    rfl
  · rw [normalForm, foldUp, foldUpWith, continueFold_root]
    rfl

end Rule
end AccessRules
