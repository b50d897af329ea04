import Mathlib.Algebra.Ring.Nat
import Mathlib.Logic.Function.Iterate
import Mathlib.Algebra.BigOperators.Group.List.Basic
import AccessRules.Proofs.Expression.SpelledTokens
import AccessRules.Proofs.Recipient.Making
import AccessRules.Proofs.Rule.Walk

/-!
# Spellings in postfix order

The loop that writes a rule keeps the pieces that are still to be written. Whatever it has done so
far, what it has written and what the pieces stand for make up the written form, and at last no
piece is left. For a spelling this is the postfix order of the tree: recipients as a walk meets
them, and a fixed number of keywords for each node.
-/

namespace AccessRules
namespace Rule

/-!
## Turns of the writing loop
-/

namespace Layout

/-- One turn of the writing loop: the next piece is put out, or gives way to the pieces of the
rule that it stands for. -/
def turn (layout : Layout α) : List (Piece α) × Array α -> List (Piece α) × Array α
  | ([], written) => ([], written)
  | (.output item :: later, written) => (later, written.push item)
  | (.part rule :: later, written) => (layout.pieces rule ++ later, written)

/-- What has been written, followed by what the pieces that are left stand for. -/
def denoted (layout : Layout α) (state : List (Piece α) × Array α) : List α :=
  state.2.toList ++ state.1.flatMap layout.expand

theorem toList_writeAll_eq_denoted (layout : Layout α) (state : List (Piece α) × Array α) :
    (layout.writeAll state.1 state.2).toList = layout.denoted state := by
  rw [toList_writeAll, toList_writeAll_nil, denoted]

/-- A turn changes nothing in what the loop writes in the end. -/
@[simp] theorem writeAll_turn (layout : Layout α) (state : List (Piece α) × Array α) :
    layout.writeAll (layout.turn state).1 (layout.turn state).2 =
      layout.writeAll state.1 state.2 := by
  rcases state with ⟨pieces, written⟩
  cases pieces with
  | nil =>
      rfl
  | cons piece later =>
      cases piece with
      | output item =>
          rw [turn, writeAll]
      | part rule =>
          rw [turn, writeAll]

@[simp] theorem denoted_turn (layout : Layout α) (state : List (Piece α) × Array α) :
    layout.denoted (layout.turn state) = layout.denoted state := by
  rw [<- toList_writeAll_eq_denoted, writeAll_turn, toList_writeAll_eq_denoted]

theorem denoted_turns (layout : Layout α) (count : Nat) (state : List (Piece α) × Array α) :
    layout.denoted (layout.turn^[count] state) = layout.denoted state := by
  induction count generalizing state with
  | zero =>
      rfl
  | succ count ih =>
      rw [Function.iterate_succ_apply, ih, denoted_turn]

theorem exists_turns (layout : Layout α) (pieces : List (Piece α)) :
    forall written, exists count, (layout.turn^[count] (pieces, written)).1 = [] := by
  induction pieces using layout.pieces_induction with
  | nil =>
      intro written
      exact ⟨0, rfl⟩
  | output item later ih =>
      intro written
      rcases ih (written.push item) with ⟨count, hcount⟩
      exact ⟨count + 1, hcount⟩
  | part rule later ih =>
      intro written
      rcases ih written with ⟨count, hcount⟩
      exact ⟨count + 1, hcount⟩

theorem exists_turns_write (layout : Layout α) (rule : Rule) :
    exists count, layout.turn^[count] ([.part rule], #[]) = ([], (layout.write rule).toArray) := by
  rcases layout.exists_turns [.part rule] #[] with ⟨count, hcount⟩
  have hdenoted := layout.denoted_turns count ([.part rule], #[])
  rw [denoted, hcount] at hdenoted
  refine ⟨count, Prod.ext hcount ?_⟩
  apply Array.ext'
  simpa [denoted, expand] using hdenoted

end Layout

/-!
## Operands and their keywords
-/

theorem flatMap_zipIdx_of_pos (connective : Connective) (operands : List (List String))
    {start : Nat} (hstart : 0 < start) :
    ((operands.zipIdx start).flatMap fun entry =>
        entry.1 ++ if connective = .not ∨ 0 < entry.2 then [connective.keyword] else []) =
      operands.flatMap fun operand => operand ++ [connective.keyword] := by
  induction operands generalizing start with
  | nil =>
      rfl
  | cons operand rest ih =>
      rw [List.zipIdx_cons, List.flatMap_cons, List.flatMap_cons, ih (Nat.succ_pos start),
        if_pos (Or.inr hstart)]

/-- Behind which operands a keyword stands, told by their numbers. -/
theorem joinOperands_eq (connective : Connective) (operands : List (List String)) :
    joinOperands connective operands =
      operands.zipIdx.flatMap fun entry =>
        entry.1 ++ if connective = .not ∨ 0 < entry.2 then [connective.keyword] else [] := by
  cases operands with
  | nil =>
      rfl
  | cons first rest =>
      have hleading : leadingKeyword connective =
          if connective = .not ∨ 0 < 0 then [connective.keyword] else [] := by
        cases connective <;> rfl
      rw [joinOperands, List.zipIdx_cons, List.flatMap_cons,
        flatMap_zipIdx_of_pos connective rest (Nat.succ_pos 0), hleading]

theorem tokens_eq_joinOperands (rule : Rule) :
    rule.tokens =
      joinOperands rule.connective
        ((rule.recipients.map fun recipient => [recipient.token]) ++ rule.parts.map tokens) := by
  rcases rule with ⟨connective, recipients, parts⟩
  rw [tokens_eq_spelledTree, spelledTree, map_tokens_eq_spelledTrees]

/-!
## Keywords by node
-/

/-- The keywords of a connective that stand behind the operands of a node. -/
def keywordsAt (connective : Connective) (node : Rule) : Nat :=
  if node.connective = connective then
    if connective = .not then node.operandCount else node.operandCount - 1
  else 0

theorem count_keyword (connective joining : Connective) :
    [joining.keyword].count connective.keyword = if joining = connective then 1 else 0 := by
  cases joining <;> cases connective <;> rfl

theorem count_flatMap_append (word keyword : String) (operands : List (List String)) :
    (operands.flatMap fun operand => operand ++ [keyword]).count word =
      (operands.map (List.count word)).sum + operands.length * [keyword].count word := by
  induction operands with
  | nil =>
      simp
  | cons operand rest ih =>
      rw [List.flatMap_cons, List.count_append, List.count_append, ih, List.map_cons,
        List.sum_cons, List.length_cons, Nat.succ_mul]
      omega

/-- The first operand of a node has a keyword behind it only if the connective is unary. -/
theorem count_joinOperands (connective joining : Connective) (operands : List (List String)) :
    (joinOperands joining operands).count connective.keyword =
      (operands.map (List.count connective.keyword)).sum +
        if joining = connective then
          if connective = .not then operands.length else operands.length - 1
        else 0 := by
  cases operands with
  | nil =>
      simp [joinOperands]
  | cons first rest =>
      have hleading : (leadingKeyword joining).count connective.keyword =
          if joining = connective ∧ connective = .not then 1 else 0 := by
        cases joining <;> cases connective <;> rfl
      rw [joinOperands, List.count_append, List.count_append, hleading, count_flatMap_append,
        count_keyword, List.map_cons, List.sum_cons, List.length_cons]
      by_cases hjoining : joining = connective
      · by_cases hnot : connective = .not
        · simp only [hjoining, hnot, and_self, if_true]
          omega
        · simp only [hjoining, hnot, and_false, if_true, if_false]
          omega
      · simp only [hjoining, false_and, if_false]
        omega

theorem sum_count_tokens (connective : Connective) (recipients : List Recipient) :
    ((recipients.map fun recipient => [recipient.token]).map
      (List.count connective.keyword)).sum = 0 := by
  rw [List.map_map]
  apply List.sum_eq_zero
  intro count hcount
  rcases List.mem_map.mp hcount with ⟨recipient, -, rfl⟩
  exact List.count_eq_zero.mpr fun hmem =>
    recipient.token_ne_keyword connective (List.mem_singleton.mp hmem).symm

mutual

theorem count_spelledTree (connective : Connective) (depth : Nat) :
    (rule : Rule) ->
      (spelledTree rule).count connective.keyword =
        ((walkTree depth rule).map fun met => keywordsAt connective met.2).sum
  | ⟨joining, recipients, parts⟩ => by
      have hlength : ((recipients.map fun recipient => [recipient.token]) ++
          spelledTrees parts).length = (⟨joining, recipients, parts⟩ : Rule).operandCount := by
        rw [List.length_append, List.length_map, <- map_tokens_eq_spelledTrees, List.length_map]
        rfl
      rw [spelledTree, count_joinOperands, hlength, List.map_append, List.sum_append,
        sum_count_tokens, sum_count_spelledTrees connective (depth + 1) parts, walkTree,
        List.map_cons, List.sum_cons, keywordsAt, Nat.zero_add, Nat.add_comm]

theorem sum_count_spelledTrees (connective : Connective) (depth : Nat) :
    (rules : List Rule) ->
      ((spelledTrees rules).map (List.count connective.keyword)).sum =
        ((walkTrees depth rules).map fun met => keywordsAt connective met.2).sum
  | [] => rfl
  | rule :: rest => by
      rw [spelledTrees, walkTrees, List.map_cons, List.sum_cons, List.map_append, List.sum_append,
        count_spelledTree connective depth rule, sum_count_spelledTrees connective depth rest]

end

/-!
## Recipients
-/

theorem filter_tokens (rule : Rule) :
    (rule.tokens.filter fun word => (Connective.ofKeyword? word).isNone) =
      rule.allRecipients.map Recipient.token := by
  rw [Expression.tokens_eq_map_word, <- Expression.filterMap_sourceTokens]
  exact Expression.Token.filter_map_word _

theorem allRecipients_eq_flatMap_walk (rule : Rule) :
    rule.allRecipients = rule.walk.flatMap fun met => met.2.recipients := by
  rw [allRecipients, rows_eq_map_walk, List.flatMap_map]
  rfl

/-- The writing loop comes to an end with the tokens of the tree written by recursion, and at
every turn it has written the first of them and holds the pieces that stand for the others. The
tokens of a node are those of its operands in their order, with a keyword behind every operand of
a negation and behind every operand but the first of another node. So the recipients come in the
order in which a walk meets them, and the keywords of a connective can be counted node by node. -/
theorem tokens_are_in_postfix_order (rule : Rule) :
    rule.tokens = spelledTree rule ∧
      (exists count,
        spelling.turn^[count] ([.part rule], #[]) = ([], rule.tokens.toArray)) ∧
      (forall count,
        spelling.denoted (spelling.turn^[count] ([.part rule], #[])) = rule.tokens) ∧
      (rule.tokens =
        ((rule.recipients.map fun recipient => [recipient.token]) ++
            rule.parts.map tokens).zipIdx.flatMap fun entry =>
          entry.1 ++
            if rule.connective = .not ∨ 0 < entry.2 then [rule.connective.keyword] else []) ∧
      (rule.tokens.filter fun word => (Connective.ofKeyword? word).isNone) =
        rule.allRecipients.map Recipient.token ∧
      (rule.allRecipients = rule.walk.flatMap fun met => met.2.recipients) ∧
      forall connective,
        rule.tokens.count connective.keyword =
          (rule.walk.map fun met => keywordsAt connective met.2).sum := by
  refine ⟨tokens_eq_spelledTree rule, spelling.exists_turns_write rule, ?_, ?_,
    filter_tokens rule, allRecipients_eq_flatMap_walk rule, ?_⟩
  · intro count
    rw [Layout.denoted_turns]
    simp [Layout.denoted, Layout.expand, tokens]
  · rw [<- joinOperands_eq]
    exact tokens_eq_joinOperands rule
  · intro connective
    rw [tokens_eq_spelledTree, walk_eq_walkTree]
    exact count_spelledTree connective 0 rule

end Rule
end AccessRules
