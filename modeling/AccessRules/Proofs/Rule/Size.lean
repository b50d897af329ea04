import AccessRules.Proofs.Rule.Equivalence
import AccessRules.Proofs.Rule.NormalForm

/-!
# The size of normal forms

Every part contributes at most its own nodes to the node above it, and all of them just
when it stays there as it is. So a normal form has no more nodes than the rule, and it has
as many only when the rule is normal. It is no higher than the rule either. Equivalent rules
have equally many nodes.
-/

namespace AccessRules
namespace Rule

/-!
## Nodes that a part contributes
-/

theorem nodeCountAll_contribution_le (connective : Connective) (part : Rule) :
    nodeCountAll (contribution connective part).parts ≤ part.nodeCount := by
  rcases contribution_cases connective part with
    ⟨-, hbrought⟩ | ⟨recipient, -, hbrought⟩ | ⟨-, hbrought⟩ | ⟨-, hbrought⟩
  · rw [hbrought]
    exact Nat.zero_le _
  · rw [hbrought]
    exact Nat.zero_le _
  · rw [hbrought, nodeCount_eq]
    exact Nat.le_succ _
  · rw [hbrought]
    exact Nat.le_refl _

theorem staysIn_of_nodeCountAll_contribution {connective : Connective} {part : Rule}
    (h : nodeCountAll (contribution connective part).parts = part.nodeCount) :
    staysIn connective part = true := by
  rw [nodeCount_eq] at h
  rcases contribution_cases connective part with
    ⟨-, hbrought⟩ | ⟨recipient, -, hbrought⟩ | ⟨-, hbrought⟩ | ⟨hstays, -⟩
  · rw [hbrought] at h
    exact absurd h (Nat.succ_ne_zero _).symm
  · rw [hbrought] at h
    exact absurd h (Nat.succ_ne_zero _).symm
  · rw [hbrought] at h
    exact absurd h (Nat.succ_ne_self _).symm
  · exact hstays

/-!
## Nodes of a normal form
-/

mutual

theorem nodeCount_normalForm :
    (rule : Rule) ->
      rule.normalForm.nodeCount ≤ rule.nodeCount ∧
        (rule.normalForm.nodeCount = rule.nodeCount -> rule.isNormal = true)
  | ⟨connective, recipients, parts⟩ => by
      rcases nodeCountAll_contributions connective parts with ⟨hle, hequal⟩
      rw [normalForm_eq, nodeCount_eq, nodeCount_eq, parts_collapse, isNormal]
      constructor
      · exact Nat.succ_le_succ hle
      · intro h
        exact hequal (Nat.succ.inj h)

theorem nodeCountAll_contributions (connective : Connective) :
    (parts : List Rule) ->
      nodeCountAll
            ((parts.map normalForm).flatMap fun part => (contribution connective part).parts) ≤
          nodeCountAll parts ∧
        (nodeCountAll
              ((parts.map normalForm).flatMap fun part => (contribution connective part).parts) =
            nodeCountAll parts ->
          areNormalIn connective parts = true)
  | [] => ⟨Nat.le_refl _, fun _ => rfl⟩
  | part :: rest => by
      rcases nodeCount_normalForm part with ⟨hpart, hpartEqual⟩
      rcases nodeCountAll_contributions connective rest with ⟨hrest, hrestEqual⟩
      have hbrought := nodeCountAll_contribution_le connective part.normalForm
      rw [List.map_cons, List.flatMap_cons, nodeCountAll_append, nodeCountAll, areNormalIn]
      constructor
      · exact Nat.add_le_add (Nat.le_trans hbrought hpart) hrest
      · intro h
        -- Nothing is lost in the whole, so nothing is lost in any part.
        have hnormal := hpartEqual (by omega)
        have hkept : nodeCountAll (contribution connective part.normalForm).parts =
            part.normalForm.nodeCount := by
          omega
        have hstays := staysIn_of_nodeCountAll_contribution hkept
        rw [normalForm_of_isNormal part hnormal] at hstays
        rw [hstays, hnormal, hrestEqual (by omega)]
        rfl

end

/-!
## Nodes of equivalent rules
-/

theorem nodeCountAll_of_perm {rules others : List Rule} (h : rules.Perm others) :
    nodeCountAll rules = nodeCountAll others := by
  induction h with
  | nil =>
      rfl
  | cons rule _ ih =>
      rw [nodeCountAll, nodeCountAll, ih]
  | swap first second rest =>
      simp only [nodeCountAll]
      exact Nat.add_left_comm _ _ _
  | trans _ _ ih ihLater =>
      exact ih.trans ihLater

mutual

theorem nodeCount_of_equivalent :
    (a : Rule) -> forall b, Equivalent a b -> a.nodeCount = b.nodeCount
  | ⟨connective, recipients, parts⟩ => by
      intro b h
      cases h with
      | node others hconnective hrecipients hreordered hpaired =>
          rw [nodeCount_eq, nodeCount_eq b, nodeCountAll_of_pairwise parts others hpaired,
            nodeCountAll_of_perm hreordered]

theorem nodeCountAll_of_pairwise :
    (as : List Rule) -> forall bs, PairwiseEquivalent as bs -> nodeCountAll as = nodeCountAll bs
  | [] => by
      intro bs h
      cases h
      rfl
  | a :: as => by
      intro bs h
      cases h with
      | cons hfirst hlater =>
          rw [nodeCountAll, nodeCountAll, nodeCount_of_equivalent a _ hfirst,
            nodeCountAll_of_pairwise as _ hlater]

end

/-!
## The height of a normal form
-/

theorem height_le_heightAll {rules : List Rule} {rule : Rule} (h : rule ∈ rules) :
    rule.height ≤ heightAll rules := by
  induction h with
  | head =>
      exact Nat.le_max_left _ _
  | tail _ _ ih =>
      exact Nat.le_trans ih (Nat.le_max_right _ _)

theorem heightAll_contribution_le (connective : Connective) (part : Rule) :
    heightAll (contribution connective part).parts ≤ part.height := by
  rcases contribution_cases connective part with
    ⟨-, hbrought⟩ | ⟨recipient, -, hbrought⟩ | ⟨-, hbrought⟩ | ⟨-, hbrought⟩
  · rw [hbrought]
    exact Nat.zero_le _
  · rw [hbrought]
    exact Nat.zero_le _
  · rw [hbrought, height_eq]
    exact Nat.le_succ _
  · rw [hbrought, heightAll, heightAll]
    exact Nat.max_le.mpr ⟨Nat.le_refl _, Nat.zero_le _⟩

mutual

theorem height_normalForm_le : (rule : Rule) -> rule.normalForm.height ≤ rule.height
  | ⟨connective, recipients, parts⟩ => by
      rw [normalForm_eq, height_eq, height_eq, parts_collapse]
      exact Nat.succ_le_succ (heightAll_contributions_le connective parts)

theorem heightAll_contributions_le (connective : Connective) :
    (parts : List Rule) ->
      heightAll
          ((parts.map normalForm).flatMap fun part => (contribution connective part).parts) ≤
        heightAll parts
  | [] => Nat.le_refl _
  | part :: rest => by
      have hbrought := heightAll_contribution_le connective part.normalForm
      have hpart := Nat.le_trans hbrought (height_normalForm_le part)
      have hrest := heightAll_contributions_le connective rest
      rw [List.map_cons, List.flatMap_cons, heightAll_append, heightAll]
      exact Nat.max_le.mpr
        ⟨Nat.le_trans hpart (Nat.le_max_left _ _), Nat.le_trans hrest (Nat.le_max_right _ _)⟩

end

end Rule
end AccessRules
