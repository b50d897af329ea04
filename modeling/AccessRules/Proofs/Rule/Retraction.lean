import AccessRules.Proofs.Rule.Matching
import AccessRules.Proofs.Rule.Size

/-!
# Normalising is a retraction

Normalising takes every rule to a normal one and leaves the normal ones as they are. Where
it changes anything it drops a node, and equivalent rules have equally many nodes. So a
rule that is not normal is not even equivalent to its normal form.
-/

namespace AccessRules
namespace Rule

/-!
## Normal rules by their nodes

The check of a rule goes down the tree. What it finds out is a condition on every node and
every part of that node, wherever they stand.
-/

/-- The nodes of a rule are the rule itself and the nodes of its parts. -/
inductive NodeOf (node : Rule) : Rule -> Prop where
  | root : NodeOf node node
  | inside {part rule : Rule} (held : part ∈ rule.parts) (further : NodeOf node part) :
      NodeOf node rule

/-- No part anywhere is empty, none is a conjunction or disjunction of one recipient and
nothing else, and none repeats the connective of a conjunction or disjunction above it. -/
def Normal (rule : Rule) : Prop :=
  forall node part,
    NodeOf node rule -> part ∈ node.parts ->
      ¬ (part.recipients = [] ∧ part.parts = []) ∧
        ¬ (part.connective ≠ .not ∧ part.recipients.length = 1 ∧ part.parts = []) ∧
          ¬ (node.connective ≠ .not ∧ part.connective = node.connective)

theorem loneRecipient?_eq_none_iff {part : Rule} :
    part.loneRecipient? = none ↔
      ¬ (part.connective ≠ .not ∧ part.recipients.length = 1 ∧ part.parts = []) := by
  constructor
  · rintro hlone ⟨hbinary, hlength, hparts⟩
    rcases List.length_eq_one_iff.mp hlength with ⟨recipient, hrecipients⟩
    rw [loneRecipient?_of_single hbinary hrecipients hparts] at hlone
    cases hlone
  · intro hother
    cases hlone : part.loneRecipient? with
    | none =>
        rfl
    | some recipient =>
        rcases loneRecipient?_eq_some hlone with ⟨hbinary, hrecipients, hparts⟩
        exact absurd ⟨hbinary, congrArg List.length hrecipients, hparts⟩ hother

theorem staysIn_iff_shape {connective : Connective} {part : Rule} :
    staysIn connective part = true ↔
      ¬ (part.recipients = [] ∧ part.parts = []) ∧
        ¬ (part.connective ≠ .not ∧ part.recipients.length = 1 ∧ part.parts = []) ∧
          ¬ (connective ≠ .not ∧ part.connective = connective) := by
  have hempty : part.isEmpty = false ↔ ¬ (part.recipients = [] ∧ part.parts = []) := by
    rw [<- Bool.not_eq_true, isEmpty_eq_true_iff]
  have habsorbs : connective.absorbs part.connective = false ↔
      ¬ (connective ≠ .not ∧ part.connective = connective) := by
    rw [<- Bool.not_eq_true, Connective.absorbs_iff, and_comm, eq_comm]
  rw [staysIn_iff, hempty, loneRecipient?_eq_none_iff, habsorbs]

theorem staysIn_of_nodeOf {node rule : Rule} (hnode : NodeOf node rule)
    (h : rule.isNormal = true) {part : Rule} (hpart : part ∈ node.parts) :
    staysIn node.connective part = true := by
  induction hnode with
  | root =>
      exact (isNormal_iff.mp h part hpart).1
  | inside held _ ih =>
      exact ih (isNormal_iff.mp h _ held).2

mutual

theorem isNormal_of_normal : (rule : Rule) -> Normal rule -> rule.isNormal = true
  | ⟨connective, recipients, parts⟩ => by
      intro h
      apply isNormal_iff.mpr
      intro part hpart
      constructor
      · exact staysIn_iff_shape.mpr (h _ part .root hpart)
      · apply isNormal_of_mem_of_normal parts _ part hpart
        intro inner hinner node further hnode hfurther
        exact h node further (.inside hinner hnode) hfurther

theorem isNormal_of_mem_of_normal :
    (rules : List Rule) -> (forall rule, rule ∈ rules -> Normal rule) ->
      forall rule, rule ∈ rules -> rule.isNormal = true
  | [] => by
      intro _ rule hrule
      cases hrule
  | first :: rest => by
      intro h
      rw [List.forall_mem_cons] at h ⊢
      exact ⟨isNormal_of_normal first h.1, isNormal_of_mem_of_normal rest h.2⟩

end

theorem isNormal_iff_normal {rule : Rule} : rule.isNormal = true ↔ Normal rule := by
  constructor
  · intro h node part hnode hpart
    exact staysIn_iff_shape.mp (staysIn_of_nodeOf hnode h hpart)
  · exact isNormal_of_normal rule

/-!
## What normalising leaves alone
-/

theorem normalForm_normalForm (rule : Rule) : rule.normalForm.normalForm = rule.normalForm :=
  normalForm_of_isNormal _ (isNormal_normalForm rule)

/-- Every normal form is normal and its own normal form. The normal rules are the ones that
agree with their normal forms node for node, the ones that are equivalent to them, and the
ones that have equally many nodes. -/
theorem normalForm_retracts_onto_normal (rule : Rule) :
    Normal rule.normalForm ∧ rule.normalForm.normalForm = rule.normalForm ∧
      (Normal rule ↔ rule.normalForm.same rule = true) ∧
        (Normal rule ↔ rule.isEquivalent rule.normalForm = true) ∧
          (Normal rule ↔ rule.nodeCount = rule.normalForm.nodeCount) := by
  have hsame : Normal rule -> rule.normalForm.same rule = true := by
    intro h
    rw [normalForm_of_isNormal rule (isNormal_iff_normal.mpr h)]
    exact same_refl rule
  have hequivalent : rule.normalForm.same rule = true ->
      rule.isEquivalent rule.normalForm = true := by
    intro h
    exact isEquivalent_iff.mpr (equivalent_symm (equivalent_of_same h))
  have hcount : rule.isEquivalent rule.normalForm = true ->
      rule.nodeCount = rule.normalForm.nodeCount := by
    intro h
    exact nodeCount_of_equivalent rule _ (isEquivalent_iff.mp h)
  have hnormal : rule.nodeCount = rule.normalForm.nodeCount -> Normal rule := by
    intro h
    exact isNormal_iff_normal.mp ((nodeCount_normalForm rule).2 h.symm)
  refine ⟨isNormal_iff_normal.mp (isNormal_normalForm rule), normalForm_normalForm rule,
    ⟨hsame, ?_⟩, ⟨?_, ?_⟩, ⟨?_, hnormal⟩⟩
  · intro h
    exact hnormal (hcount (hequivalent h))
  · intro h
    exact hequivalent (hsame h)
  · intro h
    exact hnormal (hcount h)
  · intro h
    exact hcount (hequivalent (hsame h))

end Rule
end AccessRules
