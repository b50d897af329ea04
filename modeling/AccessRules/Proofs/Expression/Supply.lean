import Mathlib.Data.List.Basic
import Mathlib.Data.List.Induction
import Mathlib.Data.Nat.Find
import AccessRules.Expression.Evaluation
import AccessRules.Proofs.Expression.Token
import AccessRules.Proofs.Expression.Operand

/-!
# Faults of structure by counting

While tokens are taken, the stack is as high as the count of waiting operands says, and
the depths on it add up to no more than the connectives taken so far. So under a limit
that allows for all connectives, counting alone tells how a reading ends.
-/

namespace AccessRules
namespace Expression

/-!
## Counting along the tokens
-/

@[simp] theorem waiting_append (first second : List Token) :
    waiting (first ++ second) = waiting first + waiting second := by
  simp only [waiting, List.countP_append]
  omega

@[simp] theorem waiting_recipient (lone : Recipient) : waiting [.recipient lone] = 1 := rfl

@[simp] theorem waiting_connective (connective : Connective) :
    waiting [.connective connective] = 1 - connective.arity := by
  cases connective <;> rfl

theorem shortAt_append {front : List Token} {position : Nat} {connective : Connective}
    (h : ShortAt front position connective) (later : List Token) :
    ShortAt (front ++ later) position connective := by
  rcases h with ⟨hat, hshort⟩
  have hposition : position < front.length := (List.getElem?_eq_some_iff.mp hat).1
  constructor
  · rw [List.getElem?_append_left hposition, hat]
  · rw [List.take_append_of_le_length (Nat.le_of_lt hposition)]
    exact hshort

theorem supplied_of_append {front later : List Token} (h : Supplied (front ++ later)) :
    Supplied front := by
  intro position connective hshort
  exact h position connective (shortAt_append hshort later)

theorem arity_le_waiting {front : List Token} {connective : Connective}
    (h : Supplied (front ++ [.connective connective])) : connective.arity ≤ waiting front := by
  by_contra hless
  apply h front.length connective
  constructor
  · rw [List.getElem?_append_right (Nat.le_refl _), Nat.sub_self]
    rfl
  · rw [List.take_left' rfl]
    omega

/-- Either no connective is short of operands or one of them is the first. -/
theorem supplied_or_firstShortAt (tokens : List Token) :
    Supplied tokens ∨ exists position connective, FirstShortAt tokens position connective := by
  classical
  by_cases h : exists position connective, ShortAt tokens position connective
  · rcases Nat.find_spec h with ⟨connective, hshort⟩
    refine Or.inr ⟨Nat.find h, connective, hshort, ?_⟩
    intro earlier other hearlier hother
    exact Nat.find_min h hearlier ⟨other, hother⟩
  · refine Or.inl ?_
    intro position connective hshort
    exact h ⟨position, connective, hshort⟩

/-- The tokens before the first shortage have none, and the connective is the next. -/
theorem split_at_firstShortAt {tokens : List Token} {position : Nat} {connective : Connective}
    (h : FirstShortAt tokens position connective) :
    tokens = tokens.take position ++ .connective connective :: tokens.drop (position + 1) ∧
      (tokens.take position).length = position ∧ Supplied (tokens.take position) := by
  rcases h with ⟨⟨hat, -⟩, hfirst⟩
  rcases List.getElem?_eq_some_iff.mp hat with ⟨hposition, htoken⟩
  have hlength : (tokens.take position).length = position :=
    List.length_take_of_le (Nat.le_of_lt hposition)
  refine ⟨?_, hlength, ?_⟩
  · rw [<- htoken, <- List.drop_eq_getElem_cons hposition, List.take_append_drop]
  · intro earlier other hshort
    have hearlier : earlier < (tokens.take position).length :=
      (List.getElem?_eq_some_iff.mp hshort.1).1
    have hwhole := shortAt_append hshort (tokens.drop position)
    rw [List.take_append_drop] at hwhole
    exact hfirst earlier other (by omega) hwhole

/-!
## The stack and the counts
-/

def totalDepth : List Operand -> Nat
  | [] => 0
  | operand :: rest => operand.depth + totalDepth rest

/-- The stack is what the counts of the tokens allow it to be. -/
structure CountedBy (tokens : List Token) (stack : List Operand) : Prop where
  length_eq : (stack.length : Int) = waiting tokens
  depth_le : totalDepth stack ≤ tokens.countP isConnectiveToken

@[simp] theorem totalDepth_nil : totalDepth [] = 0 := rfl

@[simp] theorem totalDepth_cons (operand : Operand) (stack : List Operand) :
    totalDepth (operand :: stack) = operand.depth + totalDepth stack := rfl

theorem totalDepth_reverse_append (operands rest : List Operand) :
    totalDepth (operands.reverse ++ rest) = totalDepth operands + totalDepth rest := by
  induction operands generalizing rest with
  | nil =>
      simp
  | cons operand operands ih =>
      simp [ih]
      omega

theorem depth_le_totalDepth {operands : List Operand} {operand : Operand}
    (h : operand ∈ operands) : operand.depth ≤ totalDepth operands := by
  induction h with
  | head =>
      exact Nat.le_add_right _ _
  | tail first _ ih =>
      exact Nat.le_trans ih (Nat.le_add_left _ first.depth)

theorem depth_join_le (connective : Connective) (operands : List Operand) :
    (join connective operands).depth ≤ totalDepth operands + 1 := by
  apply depth_join_le_succ
  intro operand hoperand
  exact depth_le_totalDepth hoperand

theorem countedBy_recipient {tokens : List Token} {stack : List Operand}
    (h : CountedBy tokens stack) (lone : Recipient) :
    CountedBy (tokens ++ [.recipient lone]) (.recipient lone :: stack) where
  length_eq := by
    simp [h.length_eq]
  depth_le := by
    rw [totalDepth_cons, List.countP_append]
    have := h.depth_le
    simp only [Operand.depth]
    omega

theorem countedBy_join {tokens : List Token} {connective : Connective}
    {operands rest : List Operand} (h : CountedBy tokens (operands.reverse ++ rest))
    (hlength : operands.length = connective.arity) :
    CountedBy (tokens ++ [.connective connective]) (join connective operands :: rest) where
  length_eq := by
    have hbefore := h.length_eq
    rw [List.length_append, List.length_reverse, hlength] at hbefore
    rw [waiting_append, waiting_connective, <- hbefore, List.length_cons]
    omega
  depth_le := by
    have hbefore := h.depth_le
    have hjoin := depth_join_le connective operands
    rw [totalDepth_reverse_append] at hbefore
    rw [totalDepth_cons, List.countP_append]
    simp only [List.countP_singleton, isConnectiveToken, if_true]
    omega

/-!
## Runs by counting
-/

theorem step_ne_nil (limit position : Nat) (stack : List Operand) (token : Token) :
    step limit position stack token ≠ .ok [] := by
  intro h
  cases token with
  | recipient lone =>
      cases h
  | connective connective =>
      rcases step_connective_ok h with ⟨operands, rest, -, -, hlater⟩
      cases hlater

theorem run_ne_nil (limit position : Nat) (stack : List Operand) {tokens : List Token}
    (h : tokens ≠ []) : run limit position stack tokens ≠ .ok [] := by
  rcases List.eq_nil_or_concat' tokens with rfl | ⟨front, token, rfl⟩
  · exact absurd rfl h
  · rw [run_append]
    cases run limit position stack front with
    | error fault =>
        intro hrun
        cases hrun
    | ok later =>
        rw [Except.bind, run_single]
        exact step_ne_nil limit _ later token

theorem run_of_supplied {limit : Nat} {tokens : List Token} (hsupplied : Supplied tokens)
    (hlimit : tokens.countP isConnectiveToken ≤ limit) :
    exists stack, run limit 0 [] tokens = .ok stack ∧ CountedBy tokens stack := by
  induction tokens using List.reverseRecOn with
  | nil =>
      exact ⟨[], rfl, rfl, Nat.le_refl 0⟩
  | append_singleton front token ih =>
      have hcount : (front ++ [token]).countP isConnectiveToken =
          front.countP isConnectiveToken + [token].countP isConnectiveToken :=
        List.countP_append
      rcases ih (supplied_of_append hsupplied) (by omega) with ⟨stack, hrun, hcounted⟩
      rw [run_append, hrun, Except.bind, run_single]
      cases token with
      | recipient lone =>
          exact ⟨_, rfl, countedBy_recipient hcounted lone⟩
      | connective connective =>
          have henough := arity_le_waiting hsupplied
          rw [<- hcounted.length_eq] at henough
          rcases exists_operands (Int.ofNat_le.mp henough) with ⟨operands, rest, rfl, hlength⟩
          have hjoined := countedBy_join hcounted hlength
          -- The joined operand is no deeper than all connectives taken so far.
          have hdepth := hjoined.depth_le
          rw [totalDepth_cons] at hdepth
          rw [step_connective limit _ hlength, if_neg (by omega)]
          exact ⟨_, rfl, hjoined⟩

theorem run_of_firstShortAt {limit : Nat} {tokens : List Token} {position : Nat}
    {connective : Connective} (h : FirstShortAt tokens position connective)
    (hlimit : tokens.countP isConnectiveToken ≤ limit) :
    exists available,
      run limit 0 [] tokens =
          .error (.missingOperands connective position connective.arity available) ∧
        (available : Int) = waiting (tokens.take position) := by
  rcases split_at_firstShortAt h with ⟨hsplit, hlength, hsupplied⟩
  have hfront : (tokens.take position).countP isConnectiveToken ≤ limit :=
    Nat.le_trans ((List.take_sublist position tokens).countP_le) hlimit
  rcases run_of_supplied hsupplied hfront with ⟨stack, hrun, hcounted⟩
  refine ⟨stack.length, ?_, hcounted.length_eq⟩
  have hshort := h.1.2
  rw [<- hcounted.length_eq] at hshort
  rw [hsplit, run_append, hrun, Except.bind, run, hlength, Nat.zero_add,
    step_of_short limit position (Int.ofNat_lt.mp hshort)]

/-!
## Readings by counting
-/

/-- How a reading may end, told by the counts of its tokens. -/
inductive EndsBy (tokens : List Token) : Except Fault Rule -> Prop where
  | noTokens (empty : tokens = []) : EndsBy tokens (.error .noTokens)
  | missingOperands (position : Nat) (connective : Connective) (available : Nat)
      (first : FirstShortAt tokens position connective)
      (counted : (available : Int) = waiting (tokens.take position)) :
      EndsBy tokens (.error (.missingOperands connective position connective.arity available))
  | unjoinedOperands (count : Nat) (supplied : Supplied tokens) (many : 2 ≤ count)
      (counted : (count : Int) = waiting tokens) :
      EndsBy tokens (.error (.unjoinedOperands count))
  | accepted (rule : Rule) (nonempty : tokens ≠ []) (supplied : Supplied tokens)
      (one : waiting tokens < 2) : EndsBy tokens (.ok rule)

section Reading

variable {text : String} {tokens : List Token}
  (hread : (Text.words text).map Token.read = tokens.map .ok) {limit : Nat}
  (hlimit : tokens.countP isConnectiveToken ≤ limit)

include hread

theorem parse_of_no_tokens (hempty : tokens = []) : parse limit text = .error .noTokens := by
  rw [parse_eq_bind, tokensOf_of_read hread, if_pos hempty]
  rfl

theorem parse_of_tokens (hne : tokens ≠ []) :
    parse limit text = (run limit 0 [] tokens).bind finish := by
  rw [parse_eq_bind, tokensOf_of_read hread, if_neg hne]
  rfl

include hlimit

theorem parse_of_firstShortAt {position : Nat} {connective : Connective}
    (h : FirstShortAt tokens position connective) :
    exists available,
      parse limit text =
          .error (.missingOperands connective position connective.arity available) ∧
        (available : Int) = waiting (tokens.take position) := by
  have hne : tokens ≠ [] := by
    intro hempty
    rw [hempty] at h
    cases h.1.1
  rcases run_of_firstShortAt h hlimit with ⟨available, hrun, havailable⟩
  refine ⟨available, ?_, havailable⟩
  rw [parse_of_tokens hread hne, hrun]
  rfl

theorem parse_of_supplied_many (hsupplied : Supplied tokens) (hmany : 2 ≤ waiting tokens) :
    exists count,
      parse limit text = .error (.unjoinedOperands count) ∧ (count : Int) = waiting tokens := by
  have hne : tokens ≠ [] := by
    intro hempty
    rw [hempty] at hmany
    cases hmany
  rcases run_of_supplied hsupplied hlimit with ⟨stack, hrun, hcounted⟩
  have hheight := hcounted.length_eq
  refine ⟨stack.length, ?_, hheight⟩
  rw [parse_of_tokens hread hne, hrun]
  exact finish_of_many (by omega)

theorem parse_of_supplied_one (hne : tokens ≠ []) (hsupplied : Supplied tokens)
    (hone : waiting tokens < 2) : exists rule, parse limit text = .ok rule := by
  rcases run_of_supplied hsupplied hlimit with ⟨stack, hrun, hcounted⟩
  have hheight := hcounted.length_eq
  have hpos : stack.length ≠ 0 := by
    intro hzero
    rw [List.length_eq_zero_iff.mp hzero] at hrun
    exact run_ne_nil limit 0 [] hne hrun
  rw [parse_of_tokens hread hne, hrun]
  exact finish_of_one (by omega)

theorem endsBy_parse : EndsBy tokens (parse limit text) := by
  by_cases hempty : tokens = []
  · rw [parse_of_no_tokens hread hempty]
    exact EndsBy.noTokens hempty
  · rcases supplied_or_firstShortAt tokens with hsupplied | ⟨position, connective, hfirst⟩
    · by_cases hmany : 2 ≤ waiting tokens
      · rcases parse_of_supplied_many hread hlimit hsupplied hmany with ⟨count, hparse, hcount⟩
        rw [hparse]
        exact EndsBy.unjoinedOperands count hsupplied (by omega) hcount
      · rcases parse_of_supplied_one hread hlimit hempty hsupplied (by omega) with ⟨rule, hparse⟩
        rw [hparse]
        exact EndsBy.accepted rule hempty hsupplied (by omega)
    · rcases parse_of_firstShortAt hread hlimit hfirst with ⟨available, hparse, havailable⟩
      rw [hparse]
      exact EndsBy.missingOperands position connective available hfirst havailable

/-!
Every fault of structure is the only end of a reading with its counts.
-/

theorem parse_eq_noTokens_iff : parse limit text = .error .noTokens ↔ tokens = [] := by
  constructor
  · intro hparse
    have hends := endsBy_parse hread hlimit
    rw [hparse] at hends
    cases hends with
    | noTokens empty =>
        exact empty
  · intro hempty
    exact parse_of_no_tokens hread hempty

theorem parse_eq_missingOperands_iff {connective : Connective}
    {position required available : Nat} :
    parse limit text = .error (.missingOperands connective position required available) ↔
      FirstShortAt tokens position connective ∧ required = connective.arity ∧
        (available : Int) = waiting (tokens.take position) := by
  constructor
  · intro hparse
    have hends := endsBy_parse hread hlimit
    rw [hparse] at hends
    cases hends with
    | missingOperands _ _ _ first counted =>
        exact ⟨first, rfl, counted⟩
  · rintro ⟨hfirst, rfl, hcounted⟩
    rcases parse_of_firstShortAt hread hlimit hfirst with ⟨count, hparse, hcount⟩
    have hequal : count = available := by omega
    rw [hparse, hequal]

theorem parse_eq_unjoinedOperands_iff {count : Nat} :
    parse limit text = .error (.unjoinedOperands count) ↔
      Supplied tokens ∧ 2 ≤ count ∧ (count : Int) = waiting tokens := by
  constructor
  · intro hparse
    have hends := endsBy_parse hread hlimit
    rw [hparse] at hends
    cases hends with
    | unjoinedOperands _ supplied many counted =>
        exact ⟨supplied, many, counted⟩
  · rintro ⟨hsupplied, hmany, hcounted⟩
    rcases parse_of_supplied_many hread hlimit hsupplied (by omega) with
      ⟨number, hparse, hnumber⟩
    have hequal : number = count := by omega
    rw [hparse, hequal]

theorem exists_parse_iff :
    (exists rule, parse limit text = .ok rule) ↔
      tokens ≠ [] ∧ Supplied tokens ∧ waiting tokens < 2 := by
  constructor
  · intro haccepted
    rcases haccepted with ⟨rule, hparse⟩
    have hends := endsBy_parse hread hlimit
    rw [hparse] at hends
    cases hends with
    | accepted _ nonempty supplied one =>
        exact ⟨nonempty, supplied, one⟩
  · intro hcounts
    rcases hcounts with ⟨hne, hsupplied, hone⟩
    exact parse_of_supplied_one hread hlimit hne hsupplied hone

theorem parse_ne_tooDeep (bound : Nat) : parse limit text ≠ .error (.tooDeep bound) := by
  intro hparse
  have hends := endsBy_parse hread hlimit
  rw [hparse] at hends
  cases hends

end Reading

/-- The counts of the tokens decide whether an expression of proper tokens is accepted
and which fault of structure it has otherwise. Neither the limit nor an empty stack
plays a part. -/
theorem parse_outcome_by_counting {text : String} {tokens : List Token}
    (hread : (Text.words text).map Token.read = tokens.map .ok) {limit : Nat}
    (hlimit : tokens.countP isConnectiveToken ≤ limit) :
    (parse limit text = .error .noTokens ↔ tokens = []) ∧
      (forall connective position required available,
        parse limit text = .error (.missingOperands connective position required available) ↔
          FirstShortAt tokens position connective ∧ required = connective.arity ∧
            (available : Int) = waiting (tokens.take position)) ∧
        (forall count,
          parse limit text = .error (.unjoinedOperands count) ↔
            Supplied tokens ∧ 2 ≤ count ∧ (count : Int) = waiting tokens) ∧
          ((exists rule, parse limit text = .ok rule) ↔
            tokens ≠ [] ∧ Supplied tokens ∧ waiting tokens < 2) ∧
            (forall bound, parse limit text ≠ .error (.tooDeep bound)) ∧
              forall taken, taken ≠ [] -> run limit 0 [] taken ≠ .ok [] := by
  refine ⟨parse_eq_noTokens_iff hread hlimit, ?_, ?_, exists_parse_iff hread hlimit,
    parse_ne_tooDeep hread hlimit, ?_⟩
  · intro connective position required available
    exact parse_eq_missingOperands_iff hread hlimit
  · intro count
    exact parse_eq_unjoinedOperands_iff hread hlimit
  · intro taken hne
    exact run_ne_nil limit 0 [] hne

theorem parse_outcome_by_counting_short :
    exists tokens : List Token,
      (Text.words "U:a U:b AND OR U:c").map Token.read = tokens.map .ok ∧
        tokens.countP isConnectiveToken ≤ 2 ∧
          FirstShortAt tokens 3 .or ∧
            parse 2 "U:a U:b AND OR U:c" = .error (.missingOperands .or 3 2 1) := by
  have hread : (Text.words "U:a U:b AND OR U:c").map Token.read =
      [Token.recipient ⟨.user, "a", "U:a", rfl⟩, .recipient ⟨.user, "b", "U:b", rfl⟩,
        .connective .and, .connective .or, .recipient ⟨.user, "c", "U:c", rfl⟩].map .ok := rfl
  have hlimit : [Token.recipient ⟨.user, "a", "U:a", rfl⟩, .recipient ⟨.user, "b", "U:b", rfl⟩,
      .connective .and, .connective .or,
        .recipient ⟨.user, "c", "U:c", rfl⟩].countP isConnectiveToken ≤ 2 := by decide
  refine ⟨_, hread, hlimit, ?_⟩
  have hfirst : FirstShortAt
      [Token.recipient ⟨.user, "a", "U:a", rfl⟩, .recipient ⟨.user, "b", "U:b", rfl⟩,
        .connective .and, .connective .or, .recipient ⟨.user, "c", "U:c", rfl⟩] 3 .or := by
    refine ⟨⟨rfl, by decide⟩, ?_⟩
    rintro earlier other hearlier ⟨hat, hshort⟩
    match earlier, hearlier with
    | 0, _ =>
        cases hat
    | 1, _ =>
        cases hat
    | 2, _ =>
        cases hat
        exact absurd hshort (by decide)
  exact ⟨hfirst, ((parse_outcome_by_counting hread hlimit).2.1 .or 3 2 1).mpr ⟨hfirst, rfl, rfl⟩⟩

end Expression
end AccessRules
