import Mathlib.Data.List.Range
import AccessRules.Proofs.Expression.Token
import AccessRules.Proofs.Expression.Operand
import AccessRules.Proofs.Recipient.Objection

/-!
# Why readings fail

A word is faulty when it is neither a keyword nor the token of a recipient. An expression
is refused for its words just when one of them is faulty, whatever else is wrong with it,
and the report lists every faulty word once, in the order of the text. All other faults
are faults of structure.
-/

namespace AccessRules
namespace Expression

/-!
## One faulty word
-/

namespace Token

theorem exists_read_iff {word : String} :
    (exists token, read word = .ok token) ↔ exists token : Token, token.word = word := by
  constructor
  · rintro ⟨token, hread⟩
    exact ⟨token, (word_of_read hread).1⟩
  · rintro ⟨token, rfl⟩
    exact ⟨token.unlabelled, token.read_word⟩

theorem exists_objection_iff {word : String} :
    (exists objection, read word = .error objection) ↔
      ¬ exists token : Token, token.word = word := by
  rw [<- exists_read_iff]
  cases read word with
  | ok token =>
      simp
  | error objection =>
      simp

theorem recipient_read_of_error {word : String} {objection : Objection}
    (h : read word = .error objection) : Recipient.read word = .error objection := by
  unfold read at h
  split at h
  · cases h
  · cases hread : Recipient.read word with
    | ok lone =>
        rw [hread] at h
        cases h
    | error reason =>
        rw [hread] at h
        cases h
        rfl

theorem objection_eq_iff {word : String} (hword : Text.IsWord word) {objection : Objection}
    (h : read word = .error objection) (other : Objection) :
    objection = other ↔ other.AppliesTo word := by
  rw [<- Recipient.read_eq_error_iff hword.2, recipient_read_of_error h, Except.error.injEq]

end Token

/-!
## All faulty words
-/

theorem faultOf?_eq_some {entry : String × Nat} {fault : TokenFault}
    (h : faultOf? entry = some fault) :
    entry = (fault.word, fault.position) ∧ Token.read fault.word = .error fault.objection := by
  unfold faultOf? at h
  split at h
  · cases h
  · rename_i objection hread
    cases h
    exact ⟨rfl, hread⟩

theorem mem_tokenFaults_iff {words : List String} {fault : TokenFault} :
    fault ∈ tokenFaults words ↔
      words[fault.position]? = some fault.word ∧
        Token.read fault.word = .error fault.objection := by
  rw [tokenFaults, List.mem_filterMap]
  constructor
  · rintro ⟨entry, hentry, hfault⟩
    rcases faultOf?_eq_some hfault with ⟨rfl, hread⟩
    exact ⟨List.mem_zipIdx_iff_getElem?.mp hentry, hread⟩
  · rintro ⟨hat, hread⟩
    refine ⟨(fault.word, fault.position), List.mem_zipIdx_iff_getElem?.mpr hat, ?_⟩
    rw [faultOf?, hread]

theorem pairwise_position_tokenFaults (words : List String) :
    (tokenFaults words).Pairwise fun earlier later => earlier.position < later.position := by
  have hpositions : words.zipIdx.Pairwise fun earlier later => earlier.2 < later.2 := by
    rw [<- List.pairwise_map, List.zipIdx_map_snd]
    exact List.pairwise_lt_range'
  rw [tokenFaults, List.pairwise_filterMap]
  apply hpositions.imp
  intro earlier later hless fault hfault other hother
  rcases faultOf?_eq_some hfault with ⟨rfl, -⟩
  rcases faultOf?_eq_some hother with ⟨rfl, -⟩
  exact hless

theorem tokenFaults_ne_nil_iff {words : List String} :
    tokenFaults words ≠ [] ↔
      exists word, word ∈ words ∧ ¬ exists token : Token, token.word = word := by
  rw [Ne, tokenFaults_eq_nil_iff]
  simp only [Token.exists_read_iff]
  push Not
  rfl

/-!
## Faults of structure

Neither the stack nor its end ever reports words, and a depth is only reported with the
limit itself.
-/

structure Fault.OfStructure (limit : Nat) (fault : Fault) : Prop where
  ne_badTokens (faults : List TokenFault) : fault ≠ .badTokens faults
  bound_eq (bound : Nat) : fault = .tooDeep bound -> bound = limit

theorem ofStructure_noTokens (limit : Nat) : Fault.noTokens.OfStructure limit := by
  constructor <;> (intro _ h; cases h)

theorem ofStructure_missingOperands (limit : Nat) (connective : Connective)
    (position required available : Nat) :
    (Fault.missingOperands connective position required available).OfStructure limit := by
  constructor <;> (intro _ h; cases h)

theorem ofStructure_unjoinedOperands (limit count : Nat) :
    (Fault.unjoinedOperands count).OfStructure limit := by
  constructor <;> (intro _ h; cases h)

theorem ofStructure_tooDeep (limit : Nat) : (Fault.tooDeep limit).OfStructure limit := by
  constructor
  · intro faults h
    cases h
  · intro bound h
    cases h
    rfl

theorem ofStructure_of_step_error {limit position : Nat} {stack : List Operand} {token : Token}
    {fault : Fault} (h : step limit position stack token = .error fault) :
    fault.OfStructure limit := by
  cases token with
  | recipient lone =>
      cases h
  | connective connective =>
      simp only [step] at h
      split at h
      · cases h
        exact ofStructure_missingOperands limit _ _ _ _
      · split at h
        · cases h
          exact ofStructure_tooDeep limit
        · cases h

theorem ofStructure_of_run_error {limit position : Nat} {stack : List Operand}
    {tokens : List Token} {fault : Fault} (h : run limit position stack tokens = .error fault) :
    fault.OfStructure limit := by
  induction tokens generalizing position stack with
  | nil =>
      cases h
  | cons token rest ih =>
      rw [run] at h
      split at h
      · exact ih h
      · rename_i first hstep
        cases h
        exact ofStructure_of_step_error hstep

theorem ofStructure_of_finish_error {stack : List Operand} {fault : Fault}
    (h : finish stack = .error fault) (limit : Nat) : fault.OfStructure limit := by
  unfold finish at h
  split at h
  · cases h
    exact ofStructure_noTokens limit
  · cases h
  · cases h
  · cases h
    exact ofStructure_unjoinedOperands limit _

/-!
## The order of faults

The words are looked at before the tokens are taken, so faulty words are reported before
anything else.
-/

theorem parse_error_cases {limit : Nat} {text : String} {fault : Fault}
    (h : parse limit text = .error fault) :
    (fault = .badTokens (tokenFaults (Text.words text)) ∧
        tokenFaults (Text.words text) ≠ []) ∨
      (fault.OfStructure limit ∧ tokenFaults (Text.words text) = []) := by
  rw [parse_eq_bind, tokensOf] at h
  cases hfaults : tokenFaults (Text.words text) with
  | cons first later =>
      rw [hfaults] at h
      cases h
      exact Or.inl ⟨rfl, List.cons_ne_nil first later⟩
  | nil =>
      refine Or.inr ⟨?_, rfl⟩
      simp only [hfaults] at h
      split at h
      · cases h
        exact ofStructure_noTokens limit
      · rw [Except.bind] at h
        cases hrun : run limit 0 [] ((Text.words text).filterMap Token.read?) with
        | error other =>
            rw [hrun] at h
            cases h
            exact ofStructure_of_run_error hrun
        | ok stack =>
            rw [hrun] at h
            exact ofStructure_of_finish_error h limit

theorem parse_eq_badTokens_iff {limit : Nat} {text : String} {faults : List TokenFault} :
    parse limit text = .error (.badTokens faults) ↔
      tokenFaults (Text.words text) = faults ∧ faults ≠ [] := by
  constructor
  · intro h
    rcases parse_error_cases h with ⟨hfaults, hne⟩ | ⟨hstructure, -⟩
    · cases hfaults
      exact ⟨rfl, hne⟩
    · exact absurd rfl (hstructure.ne_badTokens faults)
  · rintro ⟨hfaults, hne⟩
    rcases List.exists_cons_of_ne_nil hne with ⟨first, later, rfl⟩
    rw [parse_eq_bind, tokensOf, hfaults]
    rfl

theorem bound_eq_of_parse {limit bound : Nat} {text : String}
    (h : parse limit text = .error (.tooDeep bound)) : bound = limit := by
  rcases parse_error_cases h with ⟨hfaults, -⟩ | ⟨hstructure, -⟩
  · cases hfaults
  · exact hstructure.bound_eq bound rfl

/-- An expression is refused for its words just when one of them is faulty, under every
limit. The report lists every faulty word once, in the order of the text, with its position
among all words and with the one objection that applies to it. -/
theorem parse_reports_just_faulty_words (limit : Nat) (text : String) :
    ((exists faults, parse limit text = .error (.badTokens faults)) ↔
        exists word, word ∈ Text.words text ∧ ¬ exists token : Token, token.word = word) ∧
      forall faults,
        parse limit text = .error (.badTokens faults) ->
          (faults.Pairwise fun earlier later => earlier.position < later.position) ∧
            (forall word position,
              (exists objection, ⟨word, position, objection⟩ ∈ faults) ↔
                (Text.words text)[position]? = some word ∧
                  ¬ exists token : Token, token.word = word) ∧
              forall fault,
                fault ∈ faults ->
                  forall objection,
                    fault.objection = objection ↔ objection.AppliesTo fault.word := by
  constructor
  · simp only [parse_eq_badTokens_iff, exists_eq_left']
    exact tokenFaults_ne_nil_iff
  · intro faults h
    rcases parse_eq_badTokens_iff.mp h with ⟨rfl, -⟩
    refine ⟨pairwise_position_tokenFaults _, ?_, ?_⟩
    · intro word position
      simp only [mem_tokenFaults_iff, exists_and_left, Token.exists_objection_iff]
    · intro fault hfault
      rcases mem_tokenFaults_iff.mp hfault with ⟨hat, hread⟩
      have hword := Text.isWord_of_mem_words (List.mem_of_getElem? hat)
      exact Token.objection_eq_iff hword hread

/-- The vertical tab is blank and separates nothing, and the word with it stands behind a
keyword that has too few operands. -/
theorem parse_reports_just_faulty_words_interleaved :
    exists faults,
      parse 0 "AND XX:b U:a R: G:x\x0by" = .error (.badTokens faults) ∧
        (faults.Pairwise fun earlier later => earlier.position < later.position) ∧
          (exists objection, ⟨"G:x\x0by", 4, objection⟩ ∈ faults) ∧
            forall fault,
              fault ∈ faults ->
                forall objection,
                  fault.objection = objection ↔ objection.AppliesTo fault.word := by
  have h : parse 0 "AND XX:b U:a R: G:x\x0by" =
      .error (.badTokens [⟨"XX:b", 1, .unknownTag⟩, ⟨"R:", 3, .missingValue⟩,
        ⟨"G:x\x0by", 4, .blankInValue⟩]) := rfl
  rcases (parse_reports_just_faulty_words 0 "AND XX:b U:a R: G:x\x0by").2 _ h with
    ⟨hordered, -, hreasons⟩
  exact ⟨_, h, hordered, ⟨.blankInValue, by simp⟩, hreasons⟩

end Expression
end AccessRules
