import AccessRules.Expression.Reading
import AccessRules.Proofs.Recipient.Token

/-!
# Words and tokens

A word and the token it reads as determine each other, up to the labels of
recipients. So the tokens of an expression are known from its words and the
other way round.
-/

namespace AccessRules
namespace Expression

namespace Token

/-- The token as its word reads: a recipient loses its label. -/
def unlabelled : Token -> Token
  | connective keyword => .connective keyword
  | recipient lone => .recipient lone.unlabelled

def recipient? : Token -> Option Recipient
  | connective _ => none
  | recipient lone => some lone

theorem isWord_word (token : Token) : Text.IsWord token.word := by
  cases token with
  | connective keyword =>
      cases keyword <;>
        exact ⟨by decide, Text.any_isSeparator_eq_false.mp (by decide)⟩
  | recipient lone =>
      exact lone.isWord_token

@[simp] theorem read_word (token : Token) : read token.word = .ok token.unlabelled := by
  cases token with
  | connective keyword =>
      simp [word, read, unlabelled]
  | recipient lone =>
      simp [word, read, unlabelled, Except.map]

/-- The words of a text that are no keywords are those of its recipients. -/
theorem filter_map_word (tokens : List Token) :
    ((tokens.map Token.word).filter fun word => (Connective.ofKeyword? word).isNone) =
      (tokens.filterMap Token.recipient?).map Recipient.token := by
  induction tokens with
  | nil =>
      rfl
  | cons token rest ih =>
      cases token with
      | connective keyword =>
          simpa [word, recipient?, List.filterMap_cons] using ih
      | recipient lone =>
          simpa [word, recipient?, List.filterMap_cons] using ih

theorem word_of_read {text : String} {token : Token} (h : read text = .ok token) :
    token.word = text ∧ token.unlabelled = token := by
  unfold read at h
  split at h
  · rename_i keyword hkeyword
    cases h
    constructor
    · exact (Connective.ofKeyword?_eq_some_iff.mp hkeyword).symm
    · rfl
  · cases hread : Recipient.read text with
    | error objection =>
        rw [hread] at h
        cases h
    | ok lone =>
        rw [hread] at h
        cases h
        rcases Recipient.token_eq_of_read hread with ⟨htoken, hlabel⟩
        constructor
        · exact htoken
        · exact congrArg recipient
            (Recipient.unlabelled_eq_iff.mpr (hlabel.trans htoken.symm))

end Token

/-!
## All words at once
-/

theorem tokenFaults_eq_nil_iff {words : List String} :
    tokenFaults words = [] ↔
      forall word, word ∈ words -> exists token, Token.read word = .ok token := by
  rw [tokenFaults, List.filterMap_eq_nil_iff]
  constructor
  · intro h word hword
    rw [<- List.zipIdx_map_fst 0 words] at hword
    rcases List.mem_map.mp hword with ⟨entry, hentry, hfst⟩
    have hnone := h entry hentry
    rw [faultOf?, hfst] at hnone
    cases hread : Token.read word with
    | ok token =>
        exact ⟨token, rfl⟩
    | error objection =>
        simp [hread] at hnone
  · intro h entry hentry
    rcases h entry.1 (List.fst_mem_of_mem_zipIdx hentry) with ⟨token, hread⟩
    rw [faultOf?, hread]

theorem tokensOf_map_word {tokens : List Token} (hne : tokens ≠ []) :
    tokensOf (tokens.map Token.word) = .ok (tokens.map Token.unlabelled) := by
  have hfaults : tokenFaults (tokens.map Token.word) = [] := by
    apply tokenFaults_eq_nil_iff.mpr
    intro word hword
    rcases List.mem_map.mp hword with ⟨token, -, rfl⟩
    exact ⟨token.unlabelled, token.read_word⟩
  have hread : (tokens.map Token.word).filterMap Token.read? =
      tokens.map Token.unlabelled := by
    rw [List.filterMap_map]
    have hsome : Token.read? ∘ Token.word = some ∘ Token.unlabelled := by
      funext token
      simp [Token.read?, token.read_word, Except.toOption]
    rw [hsome, List.filterMap_eq_map]
  rw [tokensOf, hfaults]
  simp [hne, hread]

theorem filterMap_read? {words : List String}
    (hread : forall word, word ∈ words -> exists token, Token.read word = .ok token) :
    words = (words.filterMap Token.read?).map Token.word ∧
      (words.filterMap Token.read?).map Token.unlabelled =
        words.filterMap Token.read? := by
  induction words with
  | nil =>
      simp
  | cons word rest ih =>
      rcases hread word (by simp) with ⟨token, htoken⟩
      have hrest := ih fun later hlater => hread later (by simp [hlater])
      rcases Token.word_of_read htoken with ⟨hword, hunlabelled⟩
      have hsome : Token.read? word = some token := by
        simp [Token.read?, htoken, Except.toOption]
      rw [List.filterMap_cons_some hsome]
      constructor
      · rw [List.map_cons, hword, <- hrest.1]
      · rw [List.map_cons, hunlabelled, hrest.2]

theorem tokensOf_of_read {words : List String} {tokens : List Token}
    (hread : words.map Token.read = tokens.map .ok) :
    tokensOf words = if tokens = [] then .error .noTokens else .ok tokens := by
  have hfaults : tokenFaults words = [] := by
    apply tokenFaults_eq_nil_iff.mpr
    intro word hword
    have hmem := List.mem_map_of_mem (f := Token.read) hword
    rw [hread] at hmem
    rcases List.mem_map.mp hmem with ⟨token, -, htoken⟩
    exact ⟨token, htoken.symm⟩
  have htokens : words.filterMap Token.read? = tokens := by
    have hoptions := congrArg (List.filterMap Except.toOption) hread
    rw [List.filterMap_map, List.filterMap_map] at hoptions
    exact hoptions.trans List.filterMap_some
  have hlength : words.length = tokens.length := by
    simpa using congrArg List.length hread
  rw [tokensOf, hfaults, htokens]
  cases tokens with
  | nil =>
      rw [List.length_eq_zero_iff.mp hlength]
      rfl
  | cons token rest =>
      cases words with
      | nil =>
          cases hlength
      | cons word later =>
          rfl

theorem words_of_tokensOf {words : List String} {tokens : List Token}
    (h : tokensOf words = .ok tokens) :
    words = tokens.map Token.word ∧ tokens.map Token.unlabelled = tokens := by
  unfold tokensOf at h
  split at h
  · rename_i hfaults
    split at h
    · cases h
    · cases h
      exact filterMap_read? (tokenFaults_eq_nil_iff.mp hfaults)
  · cases h

/-!
## The words of a spaced text of tokens
-/

theorem words_spaced (tokens : List Token) :
    Text.words (" ".intercalate (tokens.map Token.word)) = tokens.map Token.word := by
  apply Text.words_intercalate
  intro piece hpiece
  rcases List.mem_map.mp hpiece with ⟨token, -, rfl⟩
  exact token.isWord_word

/-!
## The steps of a reading
-/

theorem parse_eq_bind (limit : Nat) (text : String) :
    parse limit text =
      (tokensOf (Text.words text)).bind fun tokens => (run limit 0 [] tokens).bind finish := rfl

end Expression
end AccessRules
