import AccessRules.Proofs.Expression.Spelling
import AccessRules.Proofs.Rule.NormalForm

/-!
# Reading what has been spelled

A rule that has the shape of a reading is read back from its spelling, under any
limit that it fits. No other rule is: whatever is read has that shape.
-/

namespace AccessRules
namespace Expression

open Rule

/-!
## Joining the operands of a node again
-/

theorem ofOperands?_of_wellSupplied {rule : Rule} (hsupplied : rule.wellSupplied = true)
    (operands : List Term) (hlength : operands.length = rule.operandCount) :
    exists term,
      Term.ofOperands? rule.connective operands = some term ∧
        term.operand = join rule.connective (operands.map Term.operand) := by
  rcases Junction.eq_not_or rule.connective with hconnective | ⟨junction, hconnective⟩
  · have hunary : rule.connective.isUnary = true := by rw [hconnective]; rfl
    rw [wellSupplied_iff_of_unary hunary, <- hlength] at hsupplied
    rcases List.length_eq_one_iff.mp hsupplied with ⟨inner, rfl⟩
    rw [hconnective]
    exact ⟨.negation inner, rfl, rfl⟩
  · have hbinary : rule.connective.isUnary = false := by
      rw [hconnective, junction.isUnary_connective]
    rw [wellSupplied_iff_of_binary hbinary, <- hlength] at hsupplied
    rw [hconnective]
    match operands, hsupplied with
    | first :: second :: rest, _ =>
        exact ⟨Term.chain junction first (second :: rest),
          Term.ofOperands?_junction junction first (second :: rest),
          Term.operand_chain junction first second rest⟩

/-- The operands of a node, as reading its spelling leaves them. -/
def operandsOf (rule : Rule) : List Operand :=
  rule.recipients.map (fun lone => .recipient lone.unlabelled) ++
    rule.parts.map fun part => .rule part.unlabelled part.height

theorem join_operandsOf {rule : Rule}
    (h : forall part, part ∈ rule.parts ->
      rule.connective.absorbs part.connective = false ∧ part.isJoined = true) :
    join rule.connective (operandsOf rule) = .rule rule.unlabelled rule.height := by
  have hformed : forall operand, operand ∈ operandsOf rule -> operand.WellFormed := by
    intro operand hoperand
    rcases List.mem_append.mp hoperand with hrecipient | hpart
    · rcases List.mem_map.mp hrecipient with ⟨lone, -, rfl⟩
      exact True.intro
    · rcases List.mem_map.mp hpart with ⟨part, hmem, rfl⟩
      constructor
      · rw [unlabelled, isJoined_namedTree]
        exact (h part hmem).2
      · exact (height_namedTree _ part).symm
  have hnode : (joined rule.connective (operandsOf rule)).1 = rule.unlabelled := by
    have hrecipients : (rule.parts.flatMap fun part =>
        Operand.recipientsIn rule.connective (.rule part.unlabelled part.height)) = [] := by
      apply List.flatMap_eq_nil_iff.mpr
      intro part hpart
      simp [Operand.recipientsIn, unlabelled, (h part hpart).1]
    have hparts : (rule.parts.flatMap fun part =>
        Operand.partsIn rule.connective (.rule part.unlabelled part.height)) =
          rule.parts.map unlabelled := by
      rw [List.map_eq_flatMap]
      apply List.flatMap_congr
      intro part hpart
      simp [Operand.partsIn, unlabelled, (h part hpart).1]
    rw [joined_rule, unlabelled_eq, operandsOf, List.flatMap_append, List.flatMap_append,
      List.flatMap_map, List.flatMap_map, List.flatMap_map, List.flatMap_map, hrecipients, hparts]
    simp [Operand.recipientsIn, Operand.partsIn, List.map_eq_flatMap]
  rw [join, <- height_joined hformed, hnode, unlabelled, height_namedTree]

mutual

theorem termOf?_of_isJoined :
    (rule : Rule) -> rule.isJoined = true ->
      exists term,
        termOf? rule = some term ∧ term.operand = .rule rule.unlabelled rule.height
  | ⟨connective, recipients, parts⟩ => by
      intro h
      rcases isJoined_iff.mp h with ⟨hsupplied, hjoined⟩
      rw [isJoined, Bool.and_eq_true] at h
      rcases termsOf?_of_areJoinedIn connective parts h.2 with ⟨terms, hterms, hoperands⟩
      have hlength : terms.length = parts.length := by
        simpa using congrArg List.length hoperands
      rcases ofOperands?_of_wellSupplied hsupplied
          (recipients.map (fun lone => .recipient lone.unlabelled) ++ terms)
          (by simp [operandCount, hlength]) with ⟨term, hterm, hoperand⟩
      refine ⟨term, ?_, ?_⟩
      · rw [termOf?, hterms]
        exact hterm
      · rw [hoperand, <- join_operandsOf hjoined, operandsOf, List.map_append, List.map_map,
          hoperands]
        rfl

theorem termsOf?_of_areJoinedIn (connective : Connective) :
    (rules : List Rule) -> areJoinedIn connective rules = true ->
      exists terms,
        termsOf? rules = some terms ∧
          terms.map Term.operand = rules.map fun rule => .rule rule.unlabelled rule.height
  | [] => by
      intro _
      exact ⟨[], rfl, rfl⟩
  | rule :: rest => by
      intro h
      simp only [areJoinedIn, Bool.and_eq_true] at h
      rcases termOf?_of_isJoined rule h.1.2 with ⟨term, hterm, hoperand⟩
      rcases termsOf?_of_areJoinedIn connective rest h.2 with ⟨terms, hterms, hoperands⟩
      refine ⟨term :: terms, ?_, ?_⟩
      · rw [termsOf?, hterm, hterms]
      · rw [List.map_cons, List.map_cons, hoperand, hoperands]

end

theorem termOf?_of_isReadable {rule : Rule} (h : rule.isReadable = true) :
    exists term, termOf? rule = some term ∧ term.rule = rule.unlabelled := by
  rw [isReadable, Bool.or_eq_true] at h
  rcases h with hlone | hjoined
  · rcases isLoneToken_iff.mp hlone with ⟨lone, rfl⟩
    refine ⟨.recipient lone.unlabelled, ?_, ?_⟩
    · simp [single, termOf?, termsOf?, Term.ofOperands?, Term.chain]
    · simp [single, unlabelled_eq, Term.rule, Term.operand, Operand.asRule]
  · rcases termOf?_of_isJoined rule hjoined with ⟨term, hterm, hoperand⟩
    refine ⟨term, hterm, ?_⟩
    rw [Term.rule, hoperand, Operand.asRule]

/-!
## Which rules come back

The spelling of a reading is read as the reading again, and every rule that is
read is a reading that fits the limit.
-/

theorem parse_spell {rule : Rule} (h : rule.isReadable = true) {limit : Nat}
    (hfits : rule.leastLimit ≤ limit) : parse limit rule.spell = .ok rule.unlabelled := by
  rcases termOf?_of_isReadable h with ⟨term, hterm, hrule⟩
  have hdepth : term.operand.depth ≤ limit := by
    rw [term.depth_operand, hrule, leastLimit_of_same rule.same_unlabelled]
    exact hfits
  rw [parse_of_spelledBy (spelledBy_spell hterm), if_pos hdepth, hrule]

theorem reading_of_parse {limit : Nat} {text : String} {rule : Rule}
    (h : parse limit text = .ok rule) :
    rule.isReadable = true ∧ rule.leastLimit ≤ limit ∧ rule.unlabelled = rule := by
  rcases parse_eq_ok_iff.mp h with ⟨term, hterm, hdepth, rfl⟩
  rw [term.depth_operand] at hdepth
  have hunlabelled := Term.unlabelled_rule (Term.isUnlabelled_of_spelledBy hterm)
  exact ⟨term.isReadable_rule, hdepth, hunlabelled⟩

/-- The whole way from a text to its canonical text and back: the rule is its own
normal form, and the spelling of that is read as the same rule. -/
theorem normalForm_and_respelling {limit : Nat} {text : String} {rule : Rule}
    (h : parse limit text = .ok rule) :
    rule.normalForm = rule ∧
      exists again,
        parse limit rule.normalForm.spell = .ok again ∧
          again = rule ∧ again.same rule = true := by
  rcases reading_of_parse h with ⟨hreadable, hfits, hunlabelled⟩
  have hnormal : rule.normalForm = rule :=
    normalForm_of_isNormal rule (isNormal_of_isReadable hreadable)
  have hagain := parse_spell hreadable hfits
  constructor
  · exact hnormal
  · refine ⟨rule.unlabelled, ?_, hunlabelled, rule.same_unlabelled⟩
    rw [hnormal]
    exact hagain

theorem normalForm_and_respelling_regrouped :
    exists rule,
      parse 2 "U:a U:b U:c AND AND NOT" = .ok rule ∧
        rule.normalForm = rule ∧
          exists again,
            parse 2 rule.normalForm.spell = .ok again ∧
              again = rule ∧ again.same rule = true := by
  have h : parse 2 "U:a U:b U:c AND AND NOT" =
      .ok ⟨.not, [], [⟨.and, [⟨.user, "a", "U:a", rfl⟩, ⟨.user, "b", "U:b", rfl⟩,
        ⟨.user, "c", "U:c", rfl⟩], []⟩]⟩ := rfl
  exact ⟨_, h, normalForm_and_respelling h⟩

/-- The rules that come back from their spellings are the readings that fit the
limit, and these are also the rules that any text is read as. -/
theorem respelled_iff_isReadable (rule : Rule) {limit : Nat} (hlimit : 1 ≤ limit) :
    ((exists again, parse limit rule.spell = .ok again ∧ again.same rule = true) ↔
        rule.isReadable = true ∧ rule.deepest + 1 ≤ limit) ∧
      ((exists text again, parse limit text = .ok again ∧ again.same rule = true) ↔
        rule.isReadable = true ∧ rule.deepest + 1 ≤ limit) := by
  have hread : forall text again,
      parse limit text = .ok again -> again.same rule = true ->
        rule.isReadable = true ∧ rule.deepest + 1 ≤ limit := by
    intro text again hparse hsame
    rcases reading_of_parse hparse with ⟨hreadable, hfits, -⟩
    rw [isReadable_of_same hsame] at hreadable
    rw [leastLimit_of_same hsame, leastLimit_le_iff hlimit] at hfits
    rw [deepest_eq]
    exact ⟨hreadable, hfits⟩
  have hspell : rule.isReadable = true ∧ rule.deepest + 1 ≤ limit ->
      parse limit rule.spell = .ok rule.unlabelled := by
    intro h
    rw [deepest_eq] at h
    exact parse_spell h.1 ((leastLimit_le_iff hlimit).mpr h.2)
  constructor
  · constructor
    · rintro ⟨again, hparse, hsame⟩
      exact hread _ again hparse hsame
    · intro h
      exact ⟨rule.unlabelled, hspell h, rule.same_unlabelled⟩
  · constructor
    · rintro ⟨text, again, hparse, hsame⟩
      exact hread text again hparse hsame
    · intro h
      exact ⟨rule.spell, rule.unlabelled, hspell h, rule.same_unlabelled⟩

theorem respelled_iff_isReadable_labelled :
    1 ≤ 2 ∧
      exists rule : Rule,
        rule = ⟨.not, [], [⟨.or, [⟨.user, "a", "Ann", rfl⟩, ⟨.user, "b", "U:b", rfl⟩], []⟩]⟩ ∧
          ((exists again, parse 2 rule.spell = .ok again ∧ again.same rule = true) ↔
              rule.isReadable = true ∧ rule.deepest + 1 ≤ 2) ∧
            ((exists text again, parse 2 text = .ok again ∧ again.same rule = true) ↔
              rule.isReadable = true ∧ rule.deepest + 1 ≤ 2) := by
  have hlimit : 1 ≤ 2 := by decide
  exact ⟨hlimit, _, rfl, respelled_iff_isReadable _ hlimit⟩

end Expression
end AccessRules
