import AccessRules.Proofs.Expression.Fault
import AccessRules.Proofs.Expression.Shape

/-!
# The limit on nesting

No rule is measured while an expression is read. Every operand carries a count instead,
which is the height of its rule, and joining operands never loses depth. So an
expression fails for its depth just when the whole rule is too deep for the limit.

Two readings of one text under different limits keep the same stack until a node is met
that fits the one limit only. So a larger limit changes no verdict but that of depth, for
texts that have other faults too.
-/

namespace AccessRules
namespace Expression

/-!
## Counted depths are heights

A step that joins well-formed operands leaves a well-formed one in their place.
-/

theorem wellFormed_of_step {limit position : Nat} {stack later : List Operand} {token : Token}
    (hstack : forall operand, operand ∈ stack -> operand.WellFormed)
    (h : step limit position stack token = .ok later) :
    forall operand, operand ∈ later -> operand.WellFormed := by
  cases token with
  | recipient lone =>
      cases h
      exact List.forall_mem_cons.mpr ⟨True.intro, hstack⟩
  | connective connective =>
      rcases step_connective_ok h with ⟨operands, rest, rfl, hlength, rfl⟩
      rw [List.forall_mem_append] at hstack
      rw [List.forall_mem_cons]
      constructor
      · apply wellFormed_join _ hlength
        intro operand hoperand
        exact hstack.1 operand (List.mem_reverse.mpr hoperand)
      · exact hstack.2

theorem wellFormed_of_run {limit position : Nat} {stack later : List Operand}
    {tokens : List Token} (hstack : forall operand, operand ∈ stack -> operand.WellFormed)
    (h : run limit position stack tokens = .ok later) :
    forall operand, operand ∈ later -> operand.WellFormed := by
  induction tokens generalizing position stack with
  | nil =>
      cases h
      exact hstack
  | cons token rest ih =>
      rw [run] at h
      split at h
      · rename_i next hstep
        exact ih (wellFormed_of_step hstack hstep) h
      · cases h

theorem depth_eq_of_run {limit position : Nat} {tokens : List Token} {stack : List Operand}
    (h : run limit position [] tokens = .ok stack) {pending : Rule} {depth : Nat}
    (hpending : Operand.rule pending depth ∈ stack) : depth = pending.deepest + 1 := by
  rw [Rule.deepest_eq]
  exact (wellFormed_of_run (List.forall_mem_nil _) h _ hpending).2

theorem Operand.depth_le_height {operand : Operand} (h : operand.WellFormed) :
    operand.depth ≤ operand.asRule.height := by
  cases operand with
  | recipient lone =>
      exact Nat.zero_le _
  | rule incoming depth =>
      exact Nat.le_of_eq h.2

/-!
## Depth is never lost

An operand stays on the stack or is joined into one that is at least as deep.
-/

theorem exists_deeper_of_step {limit position : Nat} {stack later : List Operand}
    {token : Token} (h : step limit position stack token = .ok later) {operand : Operand}
    (hoperand : operand ∈ stack) :
    exists deeper, deeper ∈ later ∧ operand.depth ≤ deeper.depth := by
  cases token with
  | recipient lone =>
      cases h
      exact ⟨operand, List.mem_cons_of_mem _ hoperand, Nat.le_refl _⟩
  | connective connective =>
      rcases step_connective_ok h with ⟨operands, rest, rfl, -, rfl⟩
      rcases List.mem_append.mp hoperand with hjoined | hkept
      · exact ⟨_, List.mem_cons_self, depth_le_joined (List.mem_reverse.mp hjoined)⟩
      · exact ⟨operand, List.mem_cons_of_mem _ hkept, Nat.le_refl _⟩

theorem exists_deeper_of_run {limit position : Nat} {stack later : List Operand}
    {tokens : List Token} (h : run limit position stack tokens = .ok later)
    {operand : Operand} (hoperand : operand ∈ stack) :
    exists deeper, deeper ∈ later ∧ operand.depth ≤ deeper.depth := by
  induction tokens generalizing position stack operand with
  | nil =>
      cases h
      exact ⟨operand, hoperand, Nat.le_refl _⟩
  | cons token rest ih =>
      rw [run] at h
      split at h
      · rename_i next hstep
        rcases exists_deeper_of_step hstep hoperand with ⟨joined, hjoined, hdepth⟩
        rcases ih h hjoined with ⟨deeper, hdeeper, hlater⟩
        exact ⟨deeper, hdeeper, Nat.le_trans hdepth hlater⟩
      · cases h

/-!
## Readings under a limit

The tokens of a text may be cut anywhere. What the first of them leave on the stack, or
the fault they end with, is what the reading goes on with.
-/

theorem parse_of_leastLimit {enough : Nat} {text : String} {rule : Rule}
    (h : parse enough text = .ok rule) (limit : Nat) :
    parse limit text =
      if rule.leastLimit ≤ limit then .ok rule else .error (.tooDeep limit) := by
  rcases parse_eq_ok_iff.mp h with ⟨term, hterm, -, rfl⟩
  rw [parse_of_spelledBy hterm, term.depth_operand]

theorem parse_under_limit {enough : Nat} {text : String} {rule : Rule}
    (h : parse enough text = .ok rule) {limit : Nat} (hlimit : 1 ≤ limit) :
    parse limit text =
      if rule.deepest + 1 ≤ limit then .ok rule else .error (.tooDeep limit) := by
  rw [parse_of_leastLimit h, Rule.deepest_eq]
  by_cases hfits : rule.height ≤ limit
  · rw [if_pos hfits, if_pos ((Rule.leastLimit_le_iff hlimit).mpr hfits)]
  · rw [if_neg hfits, if_neg (mt (Rule.leastLimit_le_iff hlimit).mp hfits)]

section Cut

variable {text : String} {taken later : List Token}
  (hread : tokensOf (Text.words text) = .ok (taken ++ later))

include hread

theorem parse_of_cut (limit : Nat) :
    parse limit text =
      (run limit 0 [] taken).bind fun stack =>
        (run limit taken.length stack later).bind finish := by
  rw [parse_eq_bind, hread, Except.bind, run_append, Nat.zero_add]
  cases run limit 0 [] taken <;> rfl

/-- Where the whole is accepted, its first tokens leave no operand deeper than it. -/
theorem depth_le_of_parse {limit : Nat} {rule : Rule} (h : parse limit text = .ok rule) :
    exists stack,
      run limit 0 [] taken = .ok stack ∧
        forall pending depth,
          Operand.rule pending depth ∈ stack -> depth ≤ rule.deepest + 1 := by
  rw [parse_of_cut hread] at h
  cases htaken : run limit 0 [] taken with
  | error fault =>
      rw [htaken] at h
      cases h
  | ok stack =>
      rw [htaken, Except.bind] at h
      cases hlater : run limit taken.length stack later with
      | error fault =>
          rw [hlater] at h
          cases h
      | ok last =>
          rw [hlater] at h
          rcases finish_eq_ok_iff.mp h with ⟨whole, rfl, rfl⟩
          have hstack := wellFormed_of_run (List.forall_mem_nil _) htaken
          have hwhole := wellFormed_of_run hstack hlater whole List.mem_cons_self
          refine ⟨stack, rfl, ?_⟩
          intro pending depth hpending
          rcases exists_deeper_of_run hlater hpending with ⟨deeper, hdeeper, hdepth⟩
          rw [List.mem_singleton.mp hdeeper] at hdepth
          rw [Rule.deepest_eq]
          exact Nat.le_trans hdepth (Operand.depth_le_height hwhole)

theorem parse_of_run_error {limit : Nat} {fault : Fault}
    (h : run limit 0 [] taken = .error fault) : parse limit text = .error fault := by
  rw [parse_of_cut hread, h]
  rfl

end Cut

/-- An expression that some limit allows is read as the same rule under every limit that
the depth of the rule fits, and is too deep for every other one. The counts on the stack
are the depths of the pending rules. None of them exceeds the depth of the whole rule, and
a reading that breaks off has met a rule that is too deep. -/
theorem limit_rejects_just_deep_rules {enough : Nat} {text : String} {rule : Rule}
    (h : parse enough text = .ok rule) {limit : Nat} (hlimit : 1 ≤ limit) :
    parse limit text =
        (if rule.deepest + 1 ≤ limit then .ok rule else .error (.tooDeep limit)) ∧
      (forall bound position tokens stack pending depth,
        run bound position [] tokens = .ok stack -> Operand.rule pending depth ∈ stack ->
          depth = pending.deepest + 1) ∧
        forall taken later,
          tokensOf (Text.words text) = .ok (taken ++ later) ->
            (exists stack,
              run enough 0 [] taken = .ok stack ∧
                forall pending depth,
                  Operand.rule pending depth ∈ stack -> depth ≤ rule.deepest + 1) ∧
              forall fault,
                run limit 0 [] taken = .error fault ->
                  fault = .tooDeep limit ∧ limit < rule.deepest + 1 := by
  have hguard := parse_under_limit h hlimit
  refine ⟨hguard, ?_, ?_⟩
  · intro bound position tokens stack pending depth hrun hpending
    exact depth_eq_of_run hrun hpending
  · intro taken later hread
    refine ⟨depth_le_of_parse hread h, ?_⟩
    intro fault hrun
    rw [parse_of_run_error hread hrun] at hguard
    split at hguard
    · cases hguard
    · rename_i hdeep
      cases hguard
      exact ⟨rfl, Nat.lt_of_not_le hdeep⟩

/-- The inner disjunction is spliced and stays at depth one, and only the negation around
it is too deep for the limit. -/
theorem limit_rejects_just_deep_rules_spliced :
    1 ≤ 1 ∧
      exists rule : Rule,
        parse 2 "U:a U:b OR U:c OR NOT" = .ok rule ∧ rule.deepest + 1 = 2 ∧
          parse 1 "U:a U:b OR U:c OR NOT" = .error (.tooDeep 1) ∧
            forall taken later,
              tokensOf (Text.words "U:a U:b OR U:c OR NOT") = .ok (taken ++ later) ->
                (exists stack,
                  run 2 0 [] taken = .ok stack ∧
                    forall pending depth, Operand.rule pending depth ∈ stack -> depth ≤ 2) ∧
                  forall fault, run 1 0 [] taken = .error fault -> fault = .tooDeep 1 := by
  have h : parse 2 "U:a U:b OR U:c OR NOT" =
      .ok ⟨.not, [], [⟨.or, [⟨.user, "a", "U:a", rfl⟩, ⟨.user, "b", "U:b", rfl⟩,
        ⟨.user, "c", "U:c", rfl⟩], []⟩]⟩ := rfl
  have hdeepest := Rule.deepest_eq ⟨.not, [], [⟨.or, [⟨.user, "a", "U:a", rfl⟩,
    ⟨.user, "b", "U:b", rfl⟩, ⟨.user, "c", "U:c", rfl⟩], []⟩]⟩
  rcases limit_rejects_just_deep_rules h (Nat.le_refl 1) with ⟨hguard, -, hcut⟩
  rw [hdeepest] at hguard hcut
  refine ⟨Nat.le_refl 1, _, h, hdeepest, hguard, ?_⟩
  intro taken later hread
  rcases hcut taken later hread with ⟨hpending, hfault⟩
  exact ⟨hpending, fun fault hrun => (hfault fault hrun).1⟩

/-!
## Two limits

Under the smaller limit a step, a run or a reading breaks off for depth, or it gives what
it gives under the larger one.
-/

section TwoLimits

variable {lower upper : Nat} (h : lower ≤ upper)

include h

theorem step_under_two_limits (position : Nat) (stack : List Operand) (token : Token) :
    step lower position stack token = .error (.tooDeep lower) ∨
      step upper position stack token = step lower position stack token := by
  cases token with
  | recipient lone =>
      exact Or.inr rfl
  | connective connective =>
      rcases Nat.lt_or_ge stack.length connective.arity with hshort | henough
      · rw [step_of_short lower position hshort, step_of_short upper position hshort]
        exact Or.inr rfl
      · rcases exists_operands henough with ⟨operands, rest, rfl, hlength⟩
        rw [step_connective lower position hlength, step_connective upper position hlength]
        by_cases hdeep : lower < (join connective operands).depth
        · rw [if_pos hdeep]
          exact Or.inl rfl
        · rw [if_neg hdeep, if_neg (mt (Nat.lt_of_le_of_lt h) hdeep)]
          exact Or.inr rfl

theorem run_under_two_limits (position : Nat) (stack : List Operand) (tokens : List Token) :
    run lower position stack tokens = .error (.tooDeep lower) ∨
      run upper position stack tokens = run lower position stack tokens := by
  induction tokens generalizing position stack with
  | nil =>
      exact Or.inr rfl
  | cons token rest ih =>
      rw [run, run]
      rcases step_under_two_limits h position stack token with hdeep | hequal
      · rw [hdeep]
        exact Or.inl rfl
      · rw [hequal]
        cases step lower position stack token with
        | error fault =>
            exact Or.inr rfl
        | ok later =>
            exact ih (position + 1) later

theorem parse_under_two_limits (text : String) :
    parse lower text = .error (.tooDeep lower) ∨ parse upper text = parse lower text := by
  rw [parse_eq_bind, parse_eq_bind]
  cases tokensOf (Text.words text) with
  | error fault =>
      exact Or.inr rfl
  | ok tokens =>
      rw [Except.bind, Except.bind]
      rcases run_under_two_limits h 0 [] tokens with hdeep | hequal
      · rw [hdeep]
        exact Or.inl rfl
      · rw [hequal]
        exact Or.inr rfl

/-- Whatever a reading gives under one limit, other than a rule that is too deep, it gives
under every larger limit, down to the fields of a fault. What is too deep for a limit is
too deep for every smaller one. -/
theorem larger_limit_keeps_verdict (text : String) :
    ((forall bound, parse lower text ≠ .error (.tooDeep bound)) ->
        parse upper text = parse lower text) ∧
      forall bound,
        parse upper text = .error (.tooDeep bound) ->
          bound = upper ∧ parse lower text = .error (.tooDeep lower) := by
  constructor
  · intro hfits
    rcases parse_under_two_limits h text with hdeep | hequal
    · exact absurd hdeep (hfits lower)
    · exact hequal
  · intro bound hupper
    refine ⟨bound_eq_of_parse hupper, ?_⟩
    rcases parse_under_two_limits h text with hdeep | hequal
    · exact hdeep
    · rw [hequal] at hupper
      rw [hupper, bound_eq_of_parse hupper]

end TwoLimits

/-- The first text is short of operands before its node that is too deep for the smaller
limit. The second one has operands left over and is too deep before that is found. -/
theorem larger_limit_keeps_verdict_of_faulty :
    0 ≤ 1 ∧
      parse 0 "U:a OR U:b NOT NOT" = .error (.missingOperands .or 1 2 1) ∧
        parse 1 "U:a OR U:b NOT NOT" = .error (.missingOperands .or 1 2 1) ∧
          parse 1 "U:a NOT NOT U:b" = .error (.tooDeep 1) ∧
            parse 0 "U:a NOT NOT U:b" = .error (.tooDeep 0) := by
  have h : 0 ≤ 1 := by decide
  have hshort : parse 0 "U:a OR U:b NOT NOT" = .error (.missingOperands .or 1 2 1) := rfl
  have hdeep : parse 1 "U:a NOT NOT U:b" = .error (.tooDeep 1) := rfl
  have hlarger := (larger_limit_keeps_verdict h "U:a OR U:b NOT NOT").1
    (by rw [hshort]; exact nofun)
  have hsmaller := (larger_limit_keeps_verdict h "U:a NOT NOT U:b").2 1 hdeep
  exact ⟨h, hshort, hlarger.trans hshort, hdeep, hsmaller.2⟩

/-!
## The rule that no limit holds back

A limit is checked where operands are joined. A recipient alone is joined to nothing, so it
is read under every limit. Its rule has depth one, and zero is the one limit that this
exceeds.
-/

theorem parse_of_isLoneToken {enough : Nat} {text : String} {rule : Rule}
    (h : parse enough text = .ok rule) (hlone : rule.isLoneToken = true) (limit : Nat) :
    parse limit text = .ok rule := by
  have hleast : rule.leastLimit = 0 := if_pos hlone
  rw [parse_of_leastLimit h, hleast, if_pos (Nat.zero_le limit)]

theorem parse_of_too_deep {enough : Nat} {text : String} {rule : Rule}
    (h : parse enough text = .ok rule) (hlone : rule.isLoneToken = false) {limit : Nat}
    (hdeep : limit < rule.height) : parse limit text = .error (.tooDeep limit) := by
  have hleast : rule.leastLimit = rule.height := if_neg (by rw [hlone]; decide)
  rw [parse_of_leastLimit h, hleast, if_neg (Nat.not_le_of_lt hdeep)]

theorem height_of_isLoneToken {rule : Rule} (h : rule.isLoneToken = true) : rule.height = 1 := by
  rcases Rule.isLoneToken_iff.mp h with ⟨lone, rfl⟩
  rfl

/-- Every rule that is read fits the limit, and where the rule of a text is deeper the reading
ends with that. A recipient alone is the one exception, under the one limit zero. -/
theorem only_lone_recipients_exceed_limit (limit : Nat) (text : String) :
    (forall rule,
      parse limit text = .ok rule ->
        rule.deepest + 1 ≤ limit ∨ (limit = 0 ∧ rule.isLoneToken = true)) ∧
      forall enough rule,
        parse enough text = .ok rule -> limit < rule.deepest + 1 ->
          (rule.isLoneToken = false ∧ parse limit text = .error (.tooDeep limit)) ∨
            (rule.isLoneToken = true ∧ limit = 0 ∧ parse limit text = .ok rule) := by
  have hsplit : forall enough rule,
      parse enough text = .ok rule -> limit < rule.height ->
        (rule.isLoneToken = false ∧ parse limit text = .error (.tooDeep limit)) ∨
          (rule.isLoneToken = true ∧ limit = 0 ∧ parse limit text = .ok rule) := by
    intro enough rule h hdeep
    cases hlone : rule.isLoneToken with
    | false =>
        exact Or.inl ⟨rfl, parse_of_too_deep h hlone hdeep⟩
    | true =>
        rw [height_of_isLoneToken hlone] at hdeep
        exact Or.inr ⟨rfl, Nat.lt_one_iff.mp hdeep, parse_of_isLoneToken h hlone limit⟩
  simp only [Rule.deepest_eq]
  refine ⟨?_, hsplit⟩
  intro rule h
  rcases Nat.lt_or_ge limit rule.height with hdeep | hfits
  · rcases hsplit limit rule h hdeep with ⟨-, hrefused⟩ | ⟨hlone, hzero, -⟩
    · rw [hrefused] at h
      cases h
    · exact Or.inr ⟨hzero, hlone⟩
  · exact Or.inl hfits

/-- Negated, the recipient is joined, and the limit zero holds. -/
theorem only_lone_recipients_exceed_limit_negated :
    exists negated alone : Rule,
      parse 1 "* NOT" = .ok negated ∧ parse 7 "*" = .ok alone ∧
        0 < negated.deepest + 1 ∧ 0 < alone.deepest + 1 ∧
          parse 0 "* NOT" = .error (.tooDeep 0) ∧
            alone.isLoneToken = true ∧ parse 0 "*" = .ok alone := by
  have hnegated : parse 1 "* NOT" = .ok (Rule.single .not Recipient.everyone) := rfl
  have halone : parse 7 "*" = .ok (Rule.single .or Recipient.everyone) := rfl
  refine ⟨_, _, hnegated, halone, Nat.succ_pos _, Nat.succ_pos _, ?_, rfl, ?_⟩
  · rcases (only_lone_recipients_exceed_limit 0 "* NOT").2 _ _ hnegated (Nat.succ_pos _) with
      ⟨-, hrefused⟩ | ⟨hlone, -⟩
    · exact hrefused
    · cases hlone
  · rcases (only_lone_recipients_exceed_limit 0 "*").2 _ _ halone (Nat.succ_pos _) with
      ⟨hlone, -⟩ | ⟨-, -, hread⟩
    · cases hlone
    · exact hread

/-- So it is not true that a rule that is read always fits the limit. -/
theorem lone_recipient_exceeds_limit_zero :
    parse 0 "U:a" = .ok ⟨.or, [⟨.user, "a", "U:a", rfl⟩], []⟩ ∧
      ¬ forall limit text rule, parse limit text = .ok rule -> rule.deepest + 1 ≤ limit := by
  have h : parse 0 "U:a" = .ok ⟨.or, [⟨.user, "a", "U:a", rfl⟩], []⟩ := rfl
  refine ⟨h, ?_⟩
  intro hfits
  exact absurd (hfits 0 "U:a" _ h) (Nat.not_succ_le_zero _)

end Expression
end AccessRules
