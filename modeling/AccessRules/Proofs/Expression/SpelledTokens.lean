import AccessRules.Proofs.Expression.Limit
import AccessRules.Proofs.Expression.Supply
import AccessRules.Proofs.Rule.Spelling
import AccessRules.Proofs.Text.Spacing

/-!
# The tokens behind a spelling

Every word of a spelling is the word of a token: of a recipient that the rule holds, or of a
keyword behind an operand. Whatever the shape and the labels of the rule are, cutting the
spelling gives these words again, and each one reads as the token that it comes from.
-/

namespace AccessRules
namespace Expression

open Rule

/-!
## Tokens along the tree
-/

/-- Put the keywords behind operands whose tokens are known. -/
def joinTokens (connective : Connective) : List (List Token) -> List Token
  | [] => []
  | first :: rest =>
      first ++ (if connective.isUnary then [.connective connective] else []) ++
        rest.flatMap fun operand => operand ++ [.connective connective]

mutual

/-- The tokens that the rule is spelled by, with the recipients that it holds. -/
def sourceTokens : Rule -> List Token
  | ⟨connective, recipients, parts⟩ =>
      joinTokens connective
        (recipients.map (fun lone => [.recipient lone]) ++ sourceTokensOfAll parts)

def sourceTokensOfAll : List Rule -> List (List Token)
  | [] => []
  | rule :: rest => sourceTokens rule :: sourceTokensOfAll rest

end

theorem map_word_joinTokens (connective : Connective) (operands : List (List Token)) :
    (joinTokens connective operands).map Token.word =
      joinOperands connective (operands.map (List.map Token.word)) := by
  cases operands with
  | nil =>
      rfl
  | cons first rest =>
      have hleading :
          (if connective.isUnary then [Token.connective connective] else []).map Token.word =
            leadingKeyword connective := by
        cases connective <;> rfl
      rw [joinTokens, List.map_append, List.map_append, hleading, List.map_cons, joinOperands]
      simp [List.map_flatMap, List.flatMap_map, Token.word]

mutual

theorem map_word_sourceTokens :
    (rule : Rule) -> (sourceTokens rule).map Token.word = spelledTree rule
  | ⟨connective, recipients, parts⟩ => by
      rw [sourceTokens, map_word_joinTokens, List.map_append, map_word_sourceTokensOfAll parts,
        spelledTree, List.map_map]
      rfl

theorem map_word_sourceTokensOfAll :
    (rules : List Rule) ->
      (sourceTokensOfAll rules).map (List.map Token.word) = spelledTrees rules
  | [] => rfl
  | rule :: rest => by
      rw [sourceTokensOfAll, List.map_cons, spelledTrees, map_word_sourceTokens rule,
        map_word_sourceTokensOfAll rest]

end

theorem tokens_eq_map_word (rule : Rule) : rule.tokens = (sourceTokens rule).map Token.word := by
  rw [map_word_sourceTokens, tokens_eq_spelledTree]

/-!
## The recipients among the tokens

Keywords stand between the recipients and change nothing in their order.
-/

theorem filterMap_joinTokens (connective : Connective) (operands : List (List Token)) :
    (joinTokens connective operands).filterMap Token.recipient? =
      operands.flatMap (List.filterMap Token.recipient?) := by
  cases operands with
  | nil =>
      rfl
  | cons first rest =>
      have hleading :
          (if connective.isUnary then [Token.connective connective] else []).filterMap
            Token.recipient? = [] := by
        cases connective <;> rfl
      rw [joinTokens, List.filterMap_append, List.filterMap_append, hleading, List.append_nil,
        List.flatMap_cons, List.filterMap_flatMap]
      congr 1
      apply List.flatMap_congr
      intro operand _
      rw [List.filterMap_append]
      exact List.append_nil _

mutual

theorem filterMap_sourceTokens :
    (rule : Rule) -> (sourceTokens rule).filterMap Token.recipient? = rule.allRecipients
  | ⟨connective, recipients, parts⟩ => by
      have hlone : (recipients.map fun lone => [Token.recipient lone]).flatMap
          (List.filterMap Token.recipient?) = recipients := by
        rw [List.flatMap_map]
        exact List.flatMap_singleton' recipients
      rw [sourceTokens, filterMap_joinTokens, List.flatMap_append, hlone,
        flatMap_sourceTokensOfAll parts, allRecipients_eq]

theorem flatMap_sourceTokensOfAll :
    (rules : List Rule) ->
      (sourceTokensOfAll rules).flatMap (List.filterMap Token.recipient?) =
        rules.flatMap allRecipients
  | [] => rfl
  | rule :: rest => by
      rw [sourceTokensOfAll, List.flatMap_cons, List.flatMap_cons, filterMap_sourceTokens rule,
        flatMap_sourceTokensOfAll rest]

end

/-!
## Reading the words again
-/

/-- The same keyword, or the same recipient up to its label. -/
def Token.Same : Token -> Token -> Prop
  | connective a, connective b => a = b
  | recipient a, recipient b => a.same b = true
  | _, _ => False

/-- The word reads as a token that is the same as the given one. -/
def ReadsAs (word : String) (token : Token) : Prop :=
  exists again, Token.read word = .ok again ∧ again.Same token

theorem readsAs_word (token : Token) : ReadsAs token.word token := by
  refine ⟨token.unlabelled, token.read_word, ?_⟩
  cases token with
  | connective keyword =>
      rfl
  | recipient lone =>
      exact Recipient.same_iff.mpr rfl

theorem words_spell (rule : Rule) : Text.words rule.spell = rule.tokens := by
  rw [spell, tokens_eq_map_word, words_spaced]

theorem singlySpaced_spell (rule : Rule) : Text.SinglySpaced rule.spell := by
  apply Text.singlySpaced_intercalate
  rw [<- words_spell]
  intro piece hpiece
  exact Text.isWord_of_mem_words hpiece

theorem map_read_words_spell (rule : Rule) :
    (Text.words rule.spell).map Token.read =
      ((sourceTokens rule).map Token.unlabelled).map .ok := by
  rw [words_spell, tokens_eq_map_word, List.map_map, List.map_map]
  exact List.map_congr_left fun token _ => token.read_word

theorem parse_spell_ne_badTokens (limit : Nat) (rule : Rule) (faults : List TokenFault) :
    parse limit rule.spell ≠ .error (.badTokens faults) := by
  intro h
  rcases parse_eq_badTokens_iff.mp h with ⟨hfaults, hne⟩
  rw [words_spell, tokens_eq_map_word] at hfaults
  apply hne
  rw [<- hfaults, tokenFaults_eq_nil_iff]
  intro word hword
  rcases List.mem_map.mp hword with ⟨token, -, rfl⟩
  exact ⟨token.unlabelled, token.read_word⟩

/-- A limit can only add the fault of a deep rule, so what holds under a limit that allows for
all connectives holds under every other one. -/
theorem parse_eq_noTokens_iff_nil {text : String} {tokens : List Token}
    (hread : (Text.words text).map Token.read = tokens.map .ok) (limit : Nat) :
    parse limit text = .error .noTokens ↔ tokens = [] := by
  constructor
  · intro h
    have henough := Nat.le_max_right limit (tokens.countP isConnectiveToken)
    rcases parse_under_two_limits (Nat.le_max_left limit (tokens.countP isConnectiveToken)) text
      with hdeep | hequal
    · rw [hdeep] at h
      cases h
    · rw [<- hequal] at h
      exact (parse_eq_noTokens_iff hread henough).mp h
  · intro hempty
    exact parse_of_no_tokens hread hempty

/-- The words of a spelling are the tokens of the rule, with single spaces between them. Each
one reads as what it was written for, the recipients are those of the rule in their order,
and so no word of a spelling is faulty. A reading finds no tokens just where there are none. -/
theorem spelling_reads_as_its_tokens (rule : Rule) (limit : Nat) :
    Text.words rule.spell = rule.tokens ∧ Text.SinglySpaced rule.spell ∧
      List.Forall₂ ReadsAs rule.tokens (sourceTokens rule) ∧
        (sourceTokens rule).filterMap Token.recipient? = rule.allRecipients ∧
          (¬ exists faults, parse limit rule.spell = .error (.badTokens faults)) ∧
            (parse limit rule.spell = .error .noTokens ↔ rule.tokens = []) := by
  refine ⟨words_spell rule, singlySpaced_spell rule, ?_, filterMap_sourceTokens rule, ?_, ?_⟩
  · rw [tokens_eq_map_word, List.forall₂_map_left_iff, List.forall₂_same]
    intro token _
    exact readsAs_word token
  · intro h
    rcases h with ⟨faults, hfaults⟩
    exact parse_spell_ne_badTokens limit rule faults hfaults
  · rw [parse_eq_noTokens_iff_nil (map_read_words_spell rule) limit, List.map_eq_nil_iff,
      tokens_eq_map_word, List.map_eq_nil_iff]

end Expression
end AccessRules
