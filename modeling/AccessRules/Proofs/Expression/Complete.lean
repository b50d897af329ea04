import AccessRules.Proofs.Expression.Equivalence
import AccessRules.Proofs.Expression.Evaluation
import AccessRules.Proofs.Rule.Size

/-!
# Spelling complete rules

A rule without empty nodes, in which every negation has one operand, spells a term. Its
nodes of a single operand are no part of that term, and neighbouring nodes of one junction
become one when the term is read. So the rule is not read back as it was. But the reading
says the same, is no deeper, and is equivalent to what the normal form is read as.
-/

namespace AccessRules
namespace Expression

open Rule

/-!
## Complete rules spell terms
-/

theorem exists_ofOperands?_of_isFilled {rule : Rule} (h : rule.isFilled = true)
    {operands : List Term} (hlength : operands.length = rule.operandCount) :
    exists term, Term.ofOperands? rule.connective operands = some term := by
  rcases isFilled_iff.mp h with ⟨hpos, hunary⟩
  rcases Junction.eq_not_or rule.connective with hnot | ⟨junction, hjunction⟩
  · rcases List.length_eq_one_iff.mp (hlength.trans (hunary hnot)) with ⟨inner, rfl⟩
    rw [hnot]
    exact ⟨.negation inner, rfl⟩
  · rw [<- hlength] at hpos
    rw [hjunction]
    match operands, hpos with
    | first :: rest, _ =>
        exact ⟨Term.chain junction first rest, Term.ofOperands?_junction junction first rest⟩

mutual

theorem exists_termOf? :
    (rule : Rule) -> rule.isComplete = true -> exists term, termOf? rule = some term
  | ⟨connective, recipients, parts⟩ => by
      intro h
      rw [isComplete, Bool.and_eq_true] at h
      rcases exists_termsOf? parts h.2 with ⟨terms, hterms⟩
      have hlength := (termsOf?_eq_some_iff.mp hterms).length_eq
      rw [termOf?, hterms]
      apply exists_ofOperands?_of_isFilled h.1
      rw [List.length_append, List.length_map, <- hlength]
      rfl

theorem exists_termsOf? :
    (rules : List Rule) -> areComplete rules = true -> exists terms, termsOf? rules = some terms
  | [] => by
      intro _
      exact ⟨[], rfl⟩
  | rule :: rest => by
      intro h
      rw [areComplete, Bool.and_eq_true] at h
      rcases exists_termOf? rule h.1 with ⟨term, hterm⟩
      rcases exists_termsOf? rest h.2 with ⟨terms, hterms⟩
      refine ⟨term :: terms, ?_⟩
      rw [termsOf?, hterm, hterms]

end

/-!
## The depth of the term

A node adds one level to its operands, or none when it has a single one.
-/

theorem Term.depth_ofOperands?_le {connective : Connective} {operands : List Term} {bound : Nat}
    (hoperands : forall operand, operand ∈ operands -> operand.operand.depth ≤ bound)
    {term : Term} (h : ofOperands? connective operands = some term) :
    term.operand.depth ≤ bound + 1 := by
  have hbound : forall operand, operand ∈ operands.map Term.operand -> operand.depth ≤ bound := by
    intro operand hoperand
    rcases List.mem_map.mp hoperand with ⟨inner, hinner, rfl⟩
    exact hoperands inner hinner
  rcases ofOperands?_eq_some h with
    ⟨inner, rfl, rfl, rfl⟩ | ⟨junction, first, rest, rfl, rfl, rfl⟩
  · exact depth_join_le_succ .not hbound
  · cases rest with
    | nil =>
        exact Nat.le_succ_of_le (hoperands first List.mem_cons_self)
    | cons second rest =>
        rw [operand_chain]
        exact depth_join_le_succ junction.connective hbound

theorem depth_termOf?_le {rule : Rule} {term : Term} (h : termOf? rule = some term) :
    term.operand.depth ≤ rule.height := by
  apply termOf?_induction _ rule term h
  intro connective recipients parts terms term hparts hjoined
  rw [height]
  apply Term.depth_ofOperands?_le _ hjoined
  intro operand hoperand
  rcases List.mem_append.mp hoperand with hrecipient | hpart
  · rcases List.mem_map.mp hrecipient with ⟨lone, -, rfl⟩
    exact Nat.zero_le _
  · rcases exists_rule_of_mem hparts hpart with ⟨part, hmem, hdepth⟩
    exact Nat.le_trans hdepth (height_le_heightAll hmem)

/-!
## The value of the term
-/

namespace Term

theorem holds_chain (assignment : Assignment) (junction : Junction) (first : Term)
    (rest : List Term) :
    (chain junction first rest).holds assignment =
      junction.connective.holds ((first :: rest).map (holds assignment)) := by
  induction rest generalizing first with
  | nil =>
      exact (Connective.holds_single junction.connective_ne_not _).symm
  | cons second rest ih =>
      -- The first two operands count like the one term that they are joined to.
      have hpair : junction.connective.holds [(joined junction first second).holds assignment] =
          junction.connective.holds [first.holds assignment, second.holds assignment] :=
        Connective.holds_single junction.connective_ne_not _
      exact (ih (joined junction first second)).trans (junction.connective.holds_append hpair rfl)

theorem holds_ofOperands? (assignment : Assignment) {connective : Connective}
    {operands : List Term} {term : Term} (h : ofOperands? connective operands = some term) :
    term.holds assignment = connective.holds (operands.map (holds assignment)) := by
  rcases ofOperands?_eq_some h with
    ⟨inner, rfl, rfl, rfl⟩ | ⟨junction, first, rest, rfl, rfl, rfl⟩
  · rfl
  · exact holds_chain assignment junction first rest

end Term

theorem holds_termOf? (assignment : Assignment) {rule : Rule} {term : Term}
    (h : termOf? rule = some term) : term.holds assignment = rule.holds assignment := by
  apply termOf?_induction _ rule term h
  intro connective recipients parts terms term hparts hjoined
  rw [Term.holds_ofOperands? assignment hjoined, Rule.holds_eq, List.map_append,
    map_eq_map_of_forall₂ hparts, List.map_map]
  rfl

/-!
## The term of the normal form

What a part contributes to a node comes there to the same as the part. So the normal form
spells the operands of the rule in another order and another grouping.
-/

theorem isEmpty_of_termOf? {rule : Rule} {term : Term} (h : termOf? rule = some term) :
    rule.isEmpty = false := by
  cases hempty : rule.isEmpty with
  | false =>
      rfl
  | true =>
      rw [isEmpty_eq_true_iff] at hempty
      rcases termOf?_eq_some h with ⟨terms, hterms, hjoined⟩
      rw [hempty.2] at hterms
      cases hterms
      rw [hempty.1] at hjoined
      cases hconnective : rule.connective <;> rw [hconnective] at hjoined <;> cases hjoined

theorem termOf?_of_loneRecipient? {part : Rule} {lone : Recipient}
    (h : part.loneRecipient? = some lone) :
    termOf? part = some (.recipient lone.unlabelled) := by
  rcases part with ⟨connective, recipients, parts⟩
  rcases loneRecipient?_eq_some h with ⟨hbinary, rfl, rfl⟩
  rcases Junction.eq_not_or connective with hnot | ⟨junction, rfl⟩
  · exact absurd hnot hbinary
  · exact Term.ofOperands?_junction junction _ []

theorem brings_contribution (connective : Connective) {part : Rule} {term : Term}
    (h : termOf? part = some term) : Brings connective (contribution connective part) term := by
  rcases contribution_cases connective part with
    ⟨hempty, -⟩ | ⟨lone, hlone, hbrought⟩ | ⟨habsorbs, hbrought⟩ | ⟨-, hbrought⟩
  · rw [isEmpty_of_termOf? h] at hempty
    cases hempty
  · rw [termOf?_of_loneRecipient? hlone] at h
    cases h
    rw [hbrought]
    exact brings_recipient connective lone
  · rw [hbrought]
    exact brings_spliced habsorbs h
  · rw [hbrought]
    exact brings_part connective h

theorem collapse_eq_gathered (node : Rule) (parts : List Rule) :
    collapse node parts =
      ⟨node.connective,
        (node.recipients.map (single node.connective) ++
          parts.map (contribution node.connective)).flatMap Rule.recipients,
        (node.recipients.map (single node.connective) ++
          parts.map (contribution node.connective)).flatMap Rule.parts⟩ := by
  simp [collapse, single, List.flatMap_map, List.flatMap_singleton']

theorem rearranged_termOf?_collapse (node : Rule) {parts : List Rule} {terms : List Term}
    (hterms : termsOf? parts = some terms) {term : Term}
    (h : Term.ofOperands? node.connective
      (node.recipients.map (fun lone => .recipient lone.unlabelled) ++ terms) = some term) :
    exists canonical,
      termOf? (collapse node parts) = some canonical ∧ Term.Rearranged term canonical := by
  have hrecipients : List.Forall₂ (Brings node.connective)
      (node.recipients.map (single node.connective))
      (node.recipients.map fun lone => .recipient lone.unlabelled) := by
    rw [List.forall₂_map_left_iff, List.forall₂_map_right_iff, List.forall₂_same]
    intro lone _
    exact brings_recipient node.connective lone
  have hparts : List.Forall₂ (Brings node.connective)
      (parts.map (contribution node.connective)) terms := by
    rw [List.forall₂_map_left_iff]
    exact (termsOf?_eq_some_iff.mp hterms).imp fun part term hpart =>
      brings_contribution node.connective hpart
  rw [collapse_eq_gathered]
  exact rearranged_termOf?_gathered (List.rel_append hrecipients hparts) h

theorem rearranged_termsOf?_normalForm {rules : List Rule} {terms : List Term}
    (h : List.Forall₂
      (fun rule term => exists canonical,
        termOf? rule.normalForm = some canonical ∧ Term.Rearranged term canonical) rules terms) :
    exists others,
      termsOf? (rules.map normalForm) = some others ∧
        List.Forall₂ Term.Rearranged terms others := by
  induction h with
  | nil =>
      exact ⟨[], rfl, List.Forall₂.nil⟩
  | cons hfirst _ ih =>
      rcases hfirst with ⟨other, hother, hrearranged⟩
      rcases ih with ⟨others, hothers, hpaired⟩
      refine ⟨other :: others, ?_, List.Forall₂.cons hrearranged hpaired⟩
      rw [List.map_cons, termsOf?, hother, hothers]

theorem rearranged_termOf?_normalForm {rule : Rule} {term : Term} (h : termOf? rule = some term) :
    exists canonical,
      termOf? rule.normalForm = some canonical ∧ Term.Rearranged term canonical := by
  apply termOf?_induction _ rule term h
  intro connective recipients parts terms term hparts hjoined
  rcases rearranged_termsOf?_normalForm hparts with ⟨others, hothers, hpaired⟩
  rcases Term.exists_rearranged_ofOperands?
      (List.rel_append (List.forall₂_refl _) hpaired) (List.Perm.refl _) hjoined with
    ⟨middle, hmiddle, hrearranged⟩
  rcases rearranged_termOf?_collapse ⟨connective, recipients, parts⟩ hothers hmiddle with
    ⟨canonical, hcanonical, hlater⟩
  rw [normalForm_eq]
  exact ⟨canonical, hcanonical, hrearranged.trans hlater⟩

/-!
## Reading the spelling
-/

theorem parse_spell_of_termOf? {rule : Rule} {term : Term} (h : termOf? rule = some term)
    {limit : Nat} (hfits : rule.height ≤ limit) : parse limit rule.spell = .ok term.rule := by
  have hdepth := Nat.le_trans (depth_termOf?_le h) hfits
  rw [parse_of_spelledBy (spelledBy_spell h), if_pos hdepth]

/-- A complete rule can be spelled and read under every limit that it fits. The reading has
the value of the rule whoever applies. Normalising the rule first makes no difference but
the order of the operands. -/
theorem parse_spell_of_isComplete {rule : Rule} (h : rule.isComplete = true) {limit : Nat}
    (hfits : rule.deepest + 1 ≤ limit) :
    exists read normal,
      parse limit rule.spell = .ok read ∧
        (forall assignment, read.holds assignment = rule.holds assignment) ∧
          parse limit rule.normalForm.spell = .ok normal ∧
            read.isEquivalent normal = true := by
  rw [deepest_eq] at hfits
  rcases exists_termOf? rule h with ⟨term, hterm⟩
  rcases rearranged_termOf?_normalForm hterm with
    ⟨canonical, hcanonical, hrearranged⟩
  have hnormalFits := Nat.le_trans (height_normalForm_le rule) hfits
  refine ⟨term.rule, canonical.rule, parse_spell_of_termOf? hterm hfits, ?_,
    parse_spell_of_termOf? hcanonical hnormalFits, ?_⟩
  · intro assignment
    rw [term.holds_rule, holds_termOf? assignment hterm]
  · rw [Rule.isEquivalent_iff]
    exact Operand.equivalent_asRule (equivalent_of_rearranged hrearranged)

/-- The conjunctions of one operand are left out of the spelling, and the order in which the
recipients come differs between the two readings. -/
theorem parse_spell_of_isComplete_reordered :
    exists rule : Rule,
      rule = ⟨.or, [], [⟨.and, [], [⟨.or, [⟨.user, "a", "Ann", rfl⟩, ⟨.user, "b", "U:b", rfl⟩],
          []⟩]⟩, ⟨.and, [⟨.user, "c", "Cy", rfl⟩], []⟩]⟩ ∧
        rule.isComplete = true ∧ rule.deepest + 1 ≤ 3 ∧
          exists read normal,
            parse 3 rule.spell = .ok read ∧
              (forall assignment, read.holds assignment = rule.holds assignment) ∧
                parse 3 rule.normalForm.spell = .ok normal ∧
                  read.isEquivalent normal = true := by
  have hcomplete : isComplete
      ⟨.or, [], [⟨.and, [], [⟨.or, [⟨.user, "a", "Ann", rfl⟩, ⟨.user, "b", "U:b", rfl⟩],
        []⟩]⟩, ⟨.and, [⟨.user, "c", "Cy", rfl⟩], []⟩]⟩ = true := rfl
  have hfits : deepest
      ⟨.or, [], [⟨.and, [], [⟨.or, [⟨.user, "a", "Ann", rfl⟩, ⟨.user, "b", "U:b", rfl⟩],
        []⟩]⟩, ⟨.and, [⟨.user, "c", "Cy", rfl⟩], []⟩]⟩ + 1 ≤ 3 := by
    rw [deepest_eq]
    decide
  exact ⟨_, rfl, hcomplete, hfits, parse_spell_of_isComplete hcomplete hfits⟩

end Expression
end AccessRules
