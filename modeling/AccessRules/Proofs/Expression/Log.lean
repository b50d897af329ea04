import Mathlib.Data.List.Forall2
import AccessRules.Expression.Trace
import AccessRules.Proofs.Expression.Fault

/-!
# What the log tells of a reading

The records of a reading can be written while the words are sifted. They tell of every recipient
token at its position, whatever else stands in the text, and end with one warning, one summary or
nothing. A keyword is a token of which nothing is recorded.
-/

namespace AccessRules
namespace Expression

/-!
## Sifting word by word
-/

theorem toList_append_filterMap (found? : α -> Option β) (entry : α) (rest : List α) :
    (found? entry).toList ++ rest.filterMap found? = (entry :: rest).filterMap found? := by
  rw [List.filterMap_cons]
  cases found? entry <;> rfl

/-- What is found of one word goes behind what has been found. -/
theorem Sifted.take_eq (sifted : Sifted) (entry : String × Nat) :
    sifted.take entry =
      ⟨sifted.tokens ++ (Token.read? entry.1).toList, sifted.faults ++ (faultOf? entry).toList,
        sifted.log ++ (tokenRecord? entry).toList⟩ := by
  rw [Sifted.take, Token.read?, faultOf?, tokenRecord?, Token.read]
  cases Connective.ofKeyword? entry.1 with
  | some keyword =>
      simp [Except.toOption]
  | none =>
      cases Recipient.read entry.1 with
      | ok recipient =>
          simp [Except.toOption, Except.map]
      | error objection =>
          simp [Except.toOption, Except.map]

theorem Sifted.foldl_take (sifted : Sifted) (entries : List (String × Nat)) :
    entries.foldl Sifted.take sifted =
      ⟨sifted.tokens ++ entries.filterMap (Token.read? ∘ Prod.fst),
        sifted.faults ++ entries.filterMap faultOf?,
        sifted.log ++ entries.filterMap tokenRecord?⟩ := by
  induction entries generalizing sifted with
  | nil =>
      simp
  | cons entry rest ih =>
      rw [List.foldl_cons, ih, Sifted.take_eq]
      simp only [List.append_assoc, <- toList_append_filterMap, Function.comp_apply]

theorem sift_eq (words : List String) :
    sift words = ⟨words.filterMap Token.read?, tokenFaults words, tokenRecords words⟩ := by
  have htokens : words.zipIdx.filterMap (Token.read? ∘ Prod.fst) = words.filterMap Token.read? := by
    rw [<- List.filterMap_map, List.zipIdx_map_fst]
  rw [sift, Sifted.foldl_take, htokens]
  rfl

theorem tokensWithLog_of_faults {words : List String} (h : tokenFaults words ≠ []) :
    tokensWithLog words =
      (.error (.badTokens (tokenFaults words)),
        tokenRecords words ++ [warningRecord (tokenFaults words).length]) := by
  rw [tokensWithLog, sift_eq]
  exact if_neg (by simpa using h)

theorem tokensWithLog_of_no_faults {words : List String} (h : tokenFaults words = []) :
    tokensWithLog words = (tokensOf words, tokenRecords words) := by
  have hwords := (filterMap_read? (tokenFaults_eq_nil_iff.mp h)).1
  have hempty : (words.filterMap Token.read?).isEmpty = words.isEmpty := by
    conv_rhs => rw [hwords]
    rw [List.isEmpty_map]
  rw [tokensWithLog, sift_eq, tokensOf, h]
  simp only [List.isEmpty_nil, if_true, hempty]
  split <;> rfl

theorem tokensOf_error {words : List String} (h : tokenFaults words = []) {fault : Fault}
    (htokens : tokensOf words = .error fault) : fault = .noTokens := by
  rw [tokensOf, h] at htokens
  simp only at htokens
  split at htokens
  · cases htokens
    rfl
  · cases htokens

theorem closingRecords_of_structure {limit : Nat} {fault : Fault} (h : fault.OfStructure limit)
    (wordCount : Nat) : closingRecords wordCount (.error fault) = [] := by
  cases fault with
  | badTokens faults =>
      exact absurd rfl (h.ne_badTokens faults)
  | _ =>
      rfl

/-- Recording while reading changes nothing in the reading, and gives the same records. -/
theorem parseWithLog_eq (limit : Nat) (text : String) :
    parseWithLog limit text = (parse limit text, trace limit text) := by
  rw [parseWithLog, trace, records, parse_eq_bind]
  by_cases hfaults : tokenFaults (Text.words text) = []
  · rw [tokensWithLog_of_no_faults hfaults]
    cases htokens : tokensOf (Text.words text) with
    | error fault =>
        cases tokensOf_error hfaults htokens
        simp [Except.bind, closingRecords]
    | ok tokens =>
        have hlength : tokens.length = (Text.words text).length := by
          rw [(words_of_tokensOf htokens).1, List.length_map]
        simp only [Except.bind]
        cases hrun : run limit 0 [] tokens with
        | error fault =>
            simp [closingRecords_of_structure (ofStructure_of_run_error hrun)]
        | ok stack =>
            cases hfinish : finish stack with
            | error fault =>
                have hstructure := ofStructure_of_finish_error hfinish limit
                simp [hfinish, closingRecords_of_structure hstructure]
            | ok rule =>
                simp [hfinish, closingRecords, hlength]
  · rw [tokensWithLog_of_faults hfaults, tokensOf]
    rcases List.exists_cons_of_ne_nil hfaults with ⟨first, later, hcons⟩
    simp [hcons, Except.bind, closingRecords]

/-!
## Records of words

A trace record that tells of a word names its position and the word, and says what it is.
-/

/-- The words that read as tokens of some sort, with their positions. -/
def tokenEntries (sort : Token -> Bool) (words : List String) : List (String × Nat) :=
  words.zipIdx.filter fun entry => (Token.read? entry.1).any sort

def Token.isRecipient (token : Token) : Bool :=
  token.recipient?.isSome

def TellsOf (entry : String × Nat) (record : LogRecord) : Prop :=
  record.severity = .trace ∧
    exists sort,
      record.message = "token " ++ toString entry.2 ++ " `" ++ entry.1 ++ "` is " ++ sort

theorem tellsOf_recipientRecord (entry : String × Nat) (recipient : Recipient) :
    TellsOf entry (recipientRecord entry recipient) := by
  refine ⟨rfl, "a " ++ (recipient.kind.name ++ " recipient"), ?_⟩
  have hsort : "` is a " = "` is " ++ "a " := rfl
  rw [recipientRecord, hsort]
  simp only [String.append_assoc]

theorem forall₂_filter_filterMap {related : α -> β -> Prop} {chosen : α -> Bool}
    {found? : α -> Option β}
    (hchosen : forall entry, chosen entry = true ->
      exists found, found? entry = some found ∧ related entry found)
    (hleft : forall entry, chosen entry = false -> found? entry = none) (entries : List α) :
    List.Forall₂ related (entries.filter chosen) (entries.filterMap found?) := by
  induction entries with
  | nil =>
      exact .nil
  | cons entry rest ih =>
      cases hentry : chosen entry with
      | true =>
          rcases hchosen entry hentry with ⟨found, hfound, hrelated⟩
          rw [List.filter_cons_of_pos hentry, List.filterMap_cons_some hfound]
          exact .cons hrelated ih
      | false =>
          rw [List.filter_cons_of_neg (by simp [hentry]),
            List.filterMap_cons_none (hleft entry hentry)]
          exact ih

/-- The trace records are those of the recipient tokens, one for each and in their order. -/
theorem forall₂_tokenRecords (words : List String) :
    List.Forall₂
      (fun entry record =>
        exists recipient,
          Token.read entry.1 = .ok (.recipient recipient) ∧
            record = recipientRecord entry recipient)
      (tokenEntries Token.isRecipient words) (tokenRecords words) := by
  apply forall₂_filter_filterMap
  · intro entry hentry
    rw [tokenRecord?]
    cases hread : Token.read entry.1 with
    | error objection =>
        rw [Token.read?, hread] at hentry
        cases hentry
    | ok token =>
        cases token with
        | connective keyword =>
            rw [Token.read?, hread] at hentry
            cases hentry
        | recipient lone =>
            exact ⟨_, rfl, lone, rfl, rfl⟩
  · intro entry hentry
    rw [tokenRecord?]
    cases hread : Token.read entry.1 with
    | error objection =>
        rfl
    | ok token =>
        cases token with
        | connective keyword =>
            rfl
        | recipient lone =>
            rw [Token.read?, hread] at hentry
            cases hentry

/-!
## Counting words
-/

theorem countP_zipIdx (counted : String -> Bool) (words : List String) :
    words.zipIdx.countP (fun entry => counted entry.1) = words.countP counted := by
  conv_rhs => rw [<- List.zipIdx_map_fst 0 words, List.countP_map]
  rfl

theorem length_tokenEntries (sort : Token -> Bool) (words : List String) :
    (tokenEntries sort words).length = words.countP fun word => (Token.read? word).any sort := by
  rw [tokenEntries, <- List.countP_eq_length_filter]
  exact countP_zipIdx (fun word => (Token.read? word).any sort) words

/-- The words that read as no token. -/
def faultyCount (words : List String) : Nat :=
  words.countP fun word => (Token.read? word).isNone

def keywordCountIn (words : List String) : Nat :=
  words.countP fun word => (Connective.ofKeyword? word).isSome

theorem length_tokenFaults (words : List String) :
    (tokenFaults words).length = faultyCount words := by
  rw [tokenFaults, List.length_filterMap_eq_countP, faultyCount, <- countP_zipIdx]
  apply List.countP_congr
  intro entry _
  rw [faultOf?, Token.read?]
  cases Token.read entry.1 <;> simp [Except.toOption]

/-- Every token is the token of a recipient or a keyword, and never both. -/
theorem any_read?_cases (word : String) :
    (Connective.ofKeyword? word = none ∧
        (Token.read? word).any (fun _ => true) = (Token.read? word).any Token.isRecipient) ∨
      ((Connective.ofKeyword? word).isSome = true ∧
        (Token.read? word).any (fun _ => true) = true ∧
          (Token.read? word).any Token.isRecipient = false) := by
  rw [Token.read?, Token.read]
  cases Connective.ofKeyword? word with
  | some keyword =>
      exact .inr ⟨rfl, rfl, rfl⟩
  | none =>
      cases Recipient.read word with
      | ok recipient =>
          exact .inl ⟨rfl, rfl⟩
      | error objection =>
          exact .inl ⟨rfl, rfl⟩

theorem length_tokenEntries_all (words : List String) :
    (tokenEntries (fun _ => true) words).length =
      (tokenEntries Token.isRecipient words).length + keywordCountIn words := by
  rw [length_tokenEntries, length_tokenEntries, keywordCountIn]
  induction words with
  | nil =>
      rfl
  | cons word rest ih =>
      rw [List.countP_cons, List.countP_cons, List.countP_cons, ih]
      rcases any_read?_cases word with ⟨hnone, hany⟩ | ⟨hsome, htrue, hfalse⟩
      · simp only [hnone, hany, Option.isSome_none, Bool.false_eq_true, if_false]
        omega
      · simp only [hsome, htrue, hfalse, Bool.false_eq_true, if_true, if_false]
        omega

theorem tokenEntries_of_no_keywords {words : List String}
    (h : forall word, word ∈ words -> Connective.ofKeyword? word = none) :
    tokenEntries (fun _ => true) words = tokenEntries Token.isRecipient words := by
  apply List.filter_congr
  intro entry hentry
  rcases any_read?_cases entry.1 with ⟨-, hany⟩ | ⟨hsome, -, -⟩
  · exact hany
  · rw [h entry.1 (List.fst_mem_of_mem_zipIdx hentry)] at hsome
    cases hsome

/-!
## Trace records and closing records
-/

def traced (log : List LogRecord) : List LogRecord :=
  log.filter fun record => record.severity = .trace

def untraced (log : List LogRecord) : List LogRecord :=
  log.filter fun record => record.severity ≠ .trace

theorem severity_of_mem_tokenRecords {words : List String} {record : LogRecord}
    (h : record ∈ tokenRecords words) : record.severity = .trace := by
  rcases List.mem_filterMap.mp h with ⟨entry, -, hrecord⟩
  rw [tokenRecord?] at hrecord
  split at hrecord
  · cases hrecord
    rfl
  · cases hrecord

theorem severity_of_mem_closingRecords {wordCount : Nat} {result : Except Fault Rule}
    {record : LogRecord} (h : record ∈ closingRecords wordCount result) :
    record.severity ≠ .trace := by
  unfold closingRecords at h
  split at h
  · cases List.mem_singleton.mp h
    exact nofun
  · cases List.mem_singleton.mp h
    exact nofun
  · cases h

theorem traced_trace (limit : Nat) (text : String) :
    traced (trace limit text) = tokenRecords (Text.words text) := by
  have htold : (tokenRecords (Text.words text)).filter (fun record => record.severity = .trace) =
      tokenRecords (Text.words text) :=
    List.filter_eq_self.mpr fun record h => decide_eq_true (severity_of_mem_tokenRecords h)
  have hclosing : (closingRecords (Text.words text).length (parse limit text)).filter
      (fun record => record.severity = .trace) = [] :=
    List.filter_eq_nil_iff.mpr fun record h => by simpa using severity_of_mem_closingRecords h
  rw [traced, trace, records, List.filter_append, htold, hclosing, List.append_nil]

theorem untraced_trace (limit : Nat) (text : String) :
    untraced (trace limit text) =
      closingRecords (Text.words text).length (parse limit text) := by
  have htold : (tokenRecords (Text.words text)).filter (fun record => record.severity ≠ .trace) =
      [] :=
    List.filter_eq_nil_iff.mpr fun record h => by simpa using severity_of_mem_tokenRecords h
  have hclosing : (closingRecords (Text.words text).length (parse limit text)).filter
      (fun record => record.severity ≠ .trace) =
        closingRecords (Text.words text).length (parse limit text) :=
    List.filter_eq_self.mpr fun record h => decide_eq_true (severity_of_mem_closingRecords h)
  rw [untraced, trace, records, List.filter_append, htold, hclosing, List.nil_append]

theorem closingRecords_of_faulty {limit : Nat} {text : String}
    (h : 0 < faultyCount (Text.words text)) :
    closingRecords (Text.words text).length (parse limit text) =
      [warningRecord (faultyCount (Text.words text))] := by
  rw [<- length_tokenFaults] at h
  have hparse : parse limit text = .error (.badTokens (tokenFaults (Text.words text))) :=
    parse_eq_badTokens_iff.mpr ⟨rfl, List.ne_nil_of_length_pos h⟩
  rw [hparse, closingRecords, length_tokenFaults]

theorem closingRecords_of_error {limit : Nat} {text : String} {fault : Fault}
    (hparse : parse limit text = .error fault) (h : faultyCount (Text.words text) = 0) :
    closingRecords (Text.words text).length (.error fault) = [] := by
  rcases parse_error_cases hparse with ⟨-, hne⟩ | ⟨hstructure, -⟩
  · rw [<- length_tokenFaults] at h
    exact absurd (List.eq_nil_of_length_eq_zero h) hne
  · exact closingRecords_of_structure hstructure _

/-- The log holds one trace record for each token that is accepted, in the order of the text. -/
def AccountsForTokens (limit : Nat) (text : String) : Prop :=
  List.Forall₂ TellsOf (tokenEntries (fun _ => true) (Text.words text)) (traced (trace limit text))

theorem accountsForTokens_iff (limit : Nat) (text : String) :
    AccountsForTokens limit text ↔
      forall word, word ∈ Text.words text -> Connective.ofKeyword? word = none := by
  have htold := forall₂_tokenRecords (Text.words text)
  rw [AccountsForTokens, traced_trace]
  constructor
  · intro h word hword
    have hlength := length_tokenEntries_all (Text.words text)
    rw [h.length_eq, htold.length_eq] at hlength
    have hcount : keywordCountIn (Text.words text) = 0 := by omega
    simpa using List.countP_eq_zero.mp hcount word hword
  · intro h
    rw [tokenEntries_of_no_keywords h]
    apply htold.imp
    rintro entry record ⟨recipient, -, rfl⟩
    exact tellsOf_recipientRecord entry recipient

/-- A reading writes its log while it sifts the words. First there is a trace record for each
recipient token, in the order of the text and with its position, whatever the other words are;
each keyword lacks one, so the log accounts for all tokens only of a text without keywords. Then
one warning tells how many words are faulty, if any is, or one summary tells of a reading that
has succeeded, and nothing follows when the text is empty or its structure is at fault. -/
theorem log_tells_of_recipients_only (limit : Nat) (text : String) :
    parseWithLog limit text = (parse limit text, trace limit text) ∧
      trace limit text = traced (trace limit text) ++ untraced (trace limit text) ∧
      List.Forall₂
        (fun entry record =>
          TellsOf entry record ∧
            exists recipient,
              Token.read entry.1 = .ok (.recipient recipient) ∧
                record = recipientRecord entry recipient)
        (tokenEntries Token.isRecipient (Text.words text)) (traced (trace limit text)) ∧
      (traced (trace limit text)).length + keywordCountIn (Text.words text) =
        (tokenEntries (fun _ => true) (Text.words text)).length ∧
      (AccountsForTokens limit text ↔
        forall word, word ∈ Text.words text -> Connective.ofKeyword? word = none) ∧
      (0 < faultyCount (Text.words text) ->
        untraced (trace limit text) = [warningRecord (faultyCount (Text.words text))]) ∧
      (forall rule,
        parse limit text = .ok rule ->
          untraced (trace limit text) = [summaryRecord (Text.words text).length rule]) ∧
      forall fault,
        parse limit text = .error fault ->
          faultyCount (Text.words text) = 0 -> untraced (trace limit text) = [] := by
  have htold := forall₂_tokenRecords (Text.words text)
  refine ⟨parseWithLog_eq limit text, ?_, ?_, ?_, accountsForTokens_iff limit text, ?_, ?_, ?_⟩
  · rw [traced_trace, untraced_trace]
    rfl
  · rw [traced_trace]
    apply htold.imp
    rintro entry record ⟨recipient, hread, rfl⟩
    exact ⟨tellsOf_recipientRecord entry recipient, recipient, hread, rfl⟩
  · rw [traced_trace, length_tokenEntries_all, htold.length_eq]
  · intro h
    rw [untraced_trace, closingRecords_of_faulty h]
  · intro rule hparse
    rw [untraced_trace, hparse]
    rfl
  · intro fault hparse h
    rw [untraced_trace, hparse, closingRecords_of_error hparse h]

theorem log_tells_of_recipients_only_among_faults :
    exists count,
      count = faultyCount (Text.words "U:a XX:b NOT R: G:c") ∧ 0 < count ∧
        untraced (trace 10000 "U:a XX:b NOT R: G:c") = [warningRecord 2] ∧
          (traced (trace 10000 "U:a XX:b NOT R: G:c")).length = 2 := by
  have hcount : faultyCount (Text.words "U:a XX:b NOT R: G:c") = 2 := rfl
  have hpositive : 0 < faultyCount (Text.words "U:a XX:b NOT R: G:c") := by
    rw [hcount]
    decide
  rcases log_tells_of_recipients_only 10000 "U:a XX:b NOT R: G:c" with
    ⟨-, -, htold, -, -, hwarning, -, -⟩
  refine ⟨_, rfl, hpositive, ?_, ?_⟩
  · rw [hwarning hpositive, hcount]
  · rw [<- htold.length_eq]
    rfl

/-- The keyword is a token at position one, and the reading succeeds, but nothing is recorded of
the keyword. -/
theorem log_lacks_keyword :
    tokenEntries (fun _ => true) (Text.words "U:a NOT") = [("U:a", 0), ("NOT", 1)] ∧
      Token.read "NOT" = .ok (.connective .not) ∧
        parse 10000 "U:a NOT" = .ok ⟨.not, [⟨.user, "a", "U:a", rfl⟩], []⟩ ∧
          traced (trace 10000 "U:a NOT") =
            [recipientRecord ("U:a", 0) ⟨.user, "a", "U:a", rfl⟩] ∧
            ¬ AccountsForTokens 10000 "U:a NOT" := by
  refine ⟨rfl, rfl, rfl, rfl, ?_⟩
  intro h
  have hlength : 2 = 1 := h.length_eq
  cases hlength

end Expression
end AccessRules
