import AccessRules.Proofs.Rule.Congruence
import AccessRules.Proofs.Rule.Conservation
import AccessRules.Proofs.Rule.Verdict

/-!
# Combining rules

Whether a rule is spliced in or held as a part, a node puts what the rule brings behind what
it holds already. The laws of combining follow from what a rule brings: all of its recipients
and, under the connective of the node, its verdict.
-/

namespace AccessRules
namespace Rule

/-!
## What a node gathers
-/

theorem connective_combine (base incoming : Rule) :
    (base.combine incoming).connective = base.connective := by
  rw [combine_eq]

theorem allRecipients_combine_perm (base incoming : Rule) :
    (base.combine incoming).allRecipients.Perm
      (base.allRecipients ++ incoming.allRecipients) := by
  rw [<- allRecipients_brought base.connective incoming, combine_eq, allRecipients_eq,
    allRecipients_eq base, allRecipients_eq (brought _ _)]
  simp only [List.flatMap_append, List.append_assoc]
  -- The recipients that come with the rule stand in front of all parts.
  exact (List.perm_append_comm_assoc _ _ _).append_left _

/-!
## Order and grouping
-/

theorem equivalent_combine_comm (base first second : Rule) :
    Equivalent ((base.combine first).combine second) ((base.combine second).combine first) := by
  have hswap : forall {α : Type} (own left right : List α),
      (own ++ left ++ right).Perm (own ++ right ++ left) := by
    intro α own left right
    rw [List.append_assoc, List.append_assoc]
    exact List.perm_append_comm.append_left own
  simp only [combine_eq]
  refine equivalent_iff.mpr ⟨rfl, ?_, ?_⟩
  · exact (hswap _ _ _).map _
  · exact matched_of_perm (hswap _ _ _)

theorem combine_assoc {base first second : Rule} (hfirst : base.connective = first.connective)
    (hsecond : first.connective = second.connective) (hbinary : base.connective ≠ .not) :
    (base.combine first).combine second = base.combine (first.combine second) := by
  have habsorbs : base.connective.absorbs first.connective = true :=
    Connective.absorbs_iff.mpr ⟨hfirst, hbinary⟩
  have hinner : first.connective.absorbs second.connective = true :=
    Connective.absorbs_iff.mpr ⟨hsecond, hfirst ▸ hbinary⟩
  have hleft : (base.combine first).connective.absorbs second.connective = true := by
    rw [connective_combine, hfirst]
    exact hinner
  have hright : base.connective.absorbs (first.combine second).connective = true := by
    rw [connective_combine]
    exact habsorbs
  rw [combine_of_absorbs hleft, combine_of_absorbs hright, combine_of_absorbs habsorbs,
    combine_of_absorbs hinner]
  simp only [List.append_assoc]

/-!
## Equivalent rules
-/

theorem equivalent_combine {base other incoming another : Rule} (h : Equivalent base other)
    (hincoming : Equivalent incoming another) :
    Equivalent (base.combine incoming) (other.combine another) := by
  rw [combine_eq, combine_eq, (equivalent_iff.mp h).1]
  exact equivalent_append _ h (equivalent_brought _ hincoming)

/-!
## Verdicts
-/

theorem operandValues_combine_perm (assignment : Assignment) (base incoming : Rule) :
    ((base.combine incoming).operandValues assignment).Perm
      (base.operandValues assignment ++
        (brought base.connective incoming).operandValues assignment) := by
  rw [combine_eq]
  simp only [operandValues, recipientValues, List.map_append, List.filterMap_append,
    List.append_assoc]
  exact (List.perm_append_comm_assoc _ _ _).append_left _

/-- A conjunction or disjunction that has taken a rule in has the verdict that its connective
gives to its own and that of the rule, as far as there are such. -/
theorem verdict?_combine (assignment : Assignment) {base : Rule}
    (hbinary : base.connective ≠ .not) (incoming : Rule) :
    (base.combine incoming).verdict? assignment =
      base.connective.verdictOf?
        ((base.verdict? assignment).toList ++ (incoming.verdict? assignment).toList) := by
  have hown : base.connective.verdictOf? (base.operandValues assignment) =
      base.connective.verdictOf? (base.verdict? assignment).toList := by
    rw [verdict?_eq, Connective.verdictOf?_toList hbinary]
  rw [verdict?_eq, connective_combine,
    base.connective.verdictOf?_of_perm (operandValues_combine_perm assignment base incoming)]
  exact base.connective.verdictOf?_append hown
    (verdictOf?_brought assignment base.connective incoming)

theorem exists_verdict? (assignment : Assignment) {rule : Rule}
    (h : rule.allRecipients ≠ []) : exists value, rule.verdict? assignment = some value := by
  apply Option.ne_none_iff_exists'.mp
  intro hnone
  exact h ((verdict?_eq_none_iff assignment rule).mp hnone)

/-- A rule that takes another one in keeps its connective and has the recipients of both. Up to
equivalence it does not matter in which order two rules are taken in, nor which of several
equivalent rules are combined, and rules of one conjunction or disjunction may be combined in any
grouping. A conjunction or disjunction holds after it as both verdicts say. -/
theorem combine_gathers_operands (base incoming : Rule) :
    (base.combine incoming).connective = base.connective ∧
      (base.combine incoming).allRecipients.Perm
          (base.allRecipients ++ incoming.allRecipients) ∧
        (forall other,
          ((base.combine incoming).combine other).isEquivalent
            ((base.combine other).combine incoming) = true) ∧
          (forall other,
            base.connective = incoming.connective -> incoming.connective = other.connective ->
              base.connective ≠ .not ->
                (base.combine incoming).combine other =
                  base.combine (incoming.combine other)) ∧
            (forall otherBase other,
              base.isEquivalent otherBase = true -> incoming.isEquivalent other = true ->
                (base.combine incoming).isEquivalent (otherBase.combine other) = true) ∧
              (base.connective ≠ .not -> base.allRecipients ≠ [] -> incoming.allRecipients ≠ [] ->
                forall assignment, exists own brought,
                  base.verdict? assignment = some own ∧
                    incoming.verdict? assignment = some brought ∧
                      (base.combine incoming).verdict? assignment =
                        some (base.connective.holds [own, brought])) := by
  refine ⟨connective_combine base incoming, allRecipients_combine_perm base incoming, ?_, ?_, ?_,
    ?_⟩
  · intro other
    exact isEquivalent_iff.mpr (equivalent_combine_comm base incoming other)
  · intro other hincoming hother hbinary
    exact combine_assoc hincoming hother hbinary
  · intro otherBase other hbase hincoming
    exact isEquivalent_iff.mpr
      (equivalent_combine (isEquivalent_iff.mp hbase) (isEquivalent_iff.mp hincoming))
  · intro hbinary hbase hincoming assignment
    rcases exists_verdict? assignment hbase with ⟨own, hown⟩
    rcases exists_verdict? assignment hincoming with ⟨brought, hbrought⟩
    refine ⟨own, brought, hown, hbrought, ?_⟩
    rw [verdict?_combine assignment hbinary, hown, hbrought]
    rfl

theorem combine_gathers_operands_nested :
    exists base incoming other counterpart : Rule,
      base = ⟨.and, [⟨.user, "a", "Ann", rfl⟩], []⟩ ∧
        incoming = ⟨.and, [⟨.user, "b", "U:b", rfl⟩], [⟨.or, [.owner, .everyone], []⟩]⟩ ∧
          other = ⟨.and, [], [⟨.not, [.owner], []⟩]⟩ ∧
            counterpart =
                ⟨.and, [⟨.user, "b", "Bob", rfl⟩], [⟨.or, [.everyone, .owner], []⟩]⟩ ∧
              (base.combine incoming).combine other = base.combine (incoming.combine other) ∧
                (base.combine incoming).isEquivalent (base.combine counterpart) = true ∧
                  forall assignment, exists own brought,
                    base.verdict? assignment = some own ∧
                      incoming.verdict? assignment = some brought ∧
                        (base.combine incoming).verdict? assignment = some (own && brought) := by
  let base : Rule := ⟨.and, [⟨.user, "a", "Ann", rfl⟩], []⟩
  let incoming : Rule := ⟨.and, [⟨.user, "b", "U:b", rfl⟩], [⟨.or, [.owner, .everyone], []⟩]⟩
  let counterpart : Rule :=
    ⟨.and, [⟨.user, "b", "Bob", rfl⟩], [⟨.or, [.everyone, .owner], []⟩]⟩
  have hinner : Equivalent ⟨.or, [.owner, .everyone], []⟩ ⟨.or, [.everyone, .owner], []⟩ :=
    equivalent_mk .or (List.Perm.swap _ _ []) (List.Perm.refl []) List.Forall₂.nil
  have hequivalent : incoming.isEquivalent counterpart = true :=
    isEquivalent_iff.mpr (equivalent_mk .and (List.Perm.refl _) (List.Perm.refl _)
      (List.Forall₂.cons hinner List.Forall₂.nil))
  rcases combine_gathers_operands base incoming with ⟨-, -, -, hassoc, hcongr, hverdict⟩
  refine ⟨base, incoming, _, counterpart, rfl, rfl, rfl, rfl,
    hassoc ⟨.and, [], [⟨.not, [.owner], []⟩]⟩ rfl rfl (by decide),
    hcongr base counterpart (isEquivalent_iff.mpr (equivalent_refl base)) hequivalent, ?_⟩
  intro assignment
  have hbase : base.allRecipients ≠ [] := by
    rw [allRecipients_eq]
    exact List.cons_ne_nil _ _
  have hincoming : incoming.allRecipients ≠ [] := by
    rw [allRecipients_eq]
    exact List.cons_ne_nil _ _
  rcases hverdict (by decide) hbase hincoming assignment with
    ⟨own, brought, hown, hbrought, hcombined⟩
  refine ⟨own, brought, hown, hbrought, ?_⟩
  rw [hcombined]
  exact congrArg some (by simp [base, Connective.holds])

end Rule
end AccessRules
