import Mathlib.Data.List.Basic
import AccessRules.Proofs.Expression.Term
import AccessRules.Proofs.Rule.Labels

/-!
# The shape of what is read

The rule of a term has the shape of a reading, and the depth that the stack has
counted is its height. A lone recipient is the one exception: it has been joined
to nothing and is held against no limit, but its rule has a node.
-/

namespace AccessRules

namespace Rule

/-!
## The limit that a reading needs
-/

/-- The least limit under which a reading is accepted. -/
def leastLimit (rule : Rule) : Nat :=
  if rule.isLoneToken then 0 else rule.height

theorem leastLimit_le_iff {rule : Rule} {limit : Nat} (hlimit : 1 ≤ limit) :
    rule.leastLimit ≤ limit ↔ rule.height ≤ limit := by
  unfold leastLimit
  split
  · rename_i hlone
    rcases isLoneToken_iff.mp hlone with ⟨lone, rfl⟩
    have hheight : (single .or lone).height = 1 := rfl
    omega
  · exact Iff.rfl

theorem isLoneToken_of_isJoined {rule : Rule} (h : rule.isJoined = true) :
    rule.isLoneToken = false := by
  cases hlone : rule.isLoneToken with
  | false =>
      rfl
  | true =>
      rcases isLoneToken_iff.mp hlone with ⟨lone, rfl⟩
      rw [isJoined_single] at h
      cases h

theorem isLoneToken_of_same {rule other : Rule} (h : rule.same other = true) :
    rule.isLoneToken = other.isLoneToken := by
  have hlone := congrArg isLoneToken (same_iff_unlabelled.mp h)
  simpa [isLoneToken, unlabelled_eq] using hlone

theorem leastLimit_of_same {rule other : Rule} (h : rule.same other = true) :
    rule.leastLimit = other.leastLimit := by
  rw [leastLimit, leastLimit, isLoneToken_of_same h, height_of_same h]

end Rule

namespace Expression

open Rule

/-!
## Shape and depth of the rule of a term
-/

namespace Term

theorem isReadable_rule (term : Term) : term.rule.isReadable = true := by
  have hformed := term.wellFormed_operand
  unfold rule
  cases hoperand : term.operand with
  | recipient lone =>
      rfl
  | rule read depth =>
      rw [hoperand] at hformed
      simp [Operand.asRule, isReadable, hformed.1]

theorem depth_operand (term : Term) : term.operand.depth = term.rule.leastLimit := by
  have hformed := term.wellFormed_operand
  unfold rule
  cases hoperand : term.operand with
  | recipient lone =>
      rfl
  | rule read depth =>
      rw [hoperand] at hformed
      rw [Operand.asRule, leastLimit, isLoneToken_of_isJoined hformed.1]
      exact hformed.2

end Term

/-!
## Readings have no labels

A text gives every recipient its token for a label, and joining keeps that.
-/

namespace Operand

def IsUnlabelled : Operand -> Prop
  | recipient lone => lone.unlabelled = lone
  | rule incoming _ => incoming.unlabelled = incoming

theorem unlabelled_recipientsIn {operand : Operand} (h : operand.IsUnlabelled)
    (connective : Connective) :
    (operand.recipientsIn connective).map Recipient.unlabelled =
      operand.recipientsIn connective := by
  cases operand with
  | recipient lone =>
      exact congrArg (fun lone => [lone]) h
  | rule incoming depth =>
      have hrecipients := congrArg recipients h
      rw [unlabelled_eq] at hrecipients
      cases habsorbs : connective.absorbs incoming.connective with
      | true =>
          simpa [recipientsIn, habsorbs] using hrecipients
      | false =>
          simp [recipientsIn, habsorbs]

theorem unlabelled_partsIn {operand : Operand} (h : operand.IsUnlabelled)
    (connective : Connective) :
    (operand.partsIn connective).map Rule.unlabelled = operand.partsIn connective := by
  cases operand with
  | recipient lone =>
      rfl
  | rule incoming depth =>
      have hparts := congrArg parts h
      rw [unlabelled_eq] at hparts
      cases habsorbs : connective.absorbs incoming.connective with
      | true =>
          simpa [partsIn, habsorbs] using hparts
      | false =>
          simp only [partsIn, habsorbs, Bool.false_eq_true, if_false]
          exact congrArg (fun part => [part]) h

end Operand

theorem isUnlabelled_join {connective : Connective} {operands : List Operand}
    (h : forall operand, operand ∈ operands -> operand.IsUnlabelled) :
    (join connective operands).IsUnlabelled := by
  show (joined connective operands).1.unlabelled = (joined connective operands).1
  rw [joined_rule, unlabelled_eq]
  simp only [List.map_flatMap, mk.injEq, true_and]
  constructor
  · apply List.flatMap_congr
    intro operand hoperand
    exact Operand.unlabelled_recipientsIn (h operand hoperand) connective
  · apply List.flatMap_congr
    intro operand hoperand
    exact Operand.unlabelled_partsIn (h operand hoperand) connective

namespace Term

def IsUnlabelled (term : Term) : Prop :=
  term.tokens.map Token.unlabelled = term.tokens

theorem isUnlabelled_recipient {lone : Recipient} :
    (recipient lone).IsUnlabelled ↔ lone.unlabelled = lone := by
  simp [IsUnlabelled, tokens, Token.unlabelled]

theorem isUnlabelled_negation {inner : Term} :
    (negation inner).IsUnlabelled ↔ inner.IsUnlabelled := by
  simp [IsUnlabelled, tokens, Token.unlabelled]

theorem isUnlabelled_joined {junction : Junction} {left right : Term} :
    (joined junction left right).IsUnlabelled ↔ left.IsUnlabelled ∧ right.IsUnlabelled := by
  unfold IsUnlabelled
  constructor
  · intro h
    simp only [tokens, List.map_append] at h
    have hoperands := (List.append_inj' h (by simp)).1
    exact List.append_inj hoperands (by simp)
  · intro h
    simp [tokens, h.1, h.2, Token.unlabelled]

/-- The words of a text spell a term that has no labels, and no other one. -/
theorem spelledBy_iff {term : Term} {text : String} :
    term.SpelledBy text ↔
      Text.words text = term.tokens.map Token.word ∧ term.IsUnlabelled := by
  constructor
  · intro h
    exact words_of_tokensOf h
  · rintro ⟨hwords, hunlabelled⟩
    rw [SpelledBy, hwords, tokensOf_map_word term.tokens_ne_nil]
    exact congrArg Except.ok hunlabelled

theorem isUnlabelled_of_spelledBy {term : Term} {text : String} (h : term.SpelledBy text) :
    term.IsUnlabelled :=
  (spelledBy_iff.mp h).2

theorem isUnlabelled_operand {term : Term} (h : term.IsUnlabelled) :
    term.operand.IsUnlabelled := by
  induction term with
  | recipient lone =>
      exact isUnlabelled_recipient.mp h
  | negation inner ih =>
      apply isUnlabelled_join
      simpa using ih (isUnlabelled_negation.mp h)
  | joined junction left right ihLeft ihRight =>
      rcases isUnlabelled_joined.mp h with ⟨hleft, hright⟩
      apply isUnlabelled_join
      simpa using ⟨ihLeft hleft, ihRight hright⟩

theorem unlabelled_rule {term : Term} (h : term.IsUnlabelled) :
    term.rule.unlabelled = term.rule := by
  have hoperand := isUnlabelled_operand h
  unfold rule
  cases hcase : term.operand with
  | recipient lone =>
      rw [hcase] at hoperand
      rw [Operand.asRule, unlabelled_eq]
      exact congrArg (single .or) hoperand
  | rule read depth =>
      rw [hcase] at hoperand
      exact hoperand

end Term
end Expression
end AccessRules
