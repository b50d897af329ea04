import AccessRules.Expression.Evaluation
import AccessRules.Proofs.Expression.Term
import AccessRules.Proofs.Expression.Shape
import AccessRules.Proofs.Rule.Meaning

/-!
# Reading keeps the meaning

Evaluating an expression token by token and evaluating the rule that it reads as
give the same value. Both follow the term of the expression: the value stack
holds the values of the terms, and the node that joins some operands has the
value that its connective gives to theirs.
-/

namespace AccessRules

namespace Expression

/-!
## Values of operands

What an operand brings into a node has, under the connective of the node, the
value of the operand.
-/

namespace Operand

def holds (assignment : Assignment) : Operand -> Bool
  | recipient lone => assignment lone.identity
  | rule incoming _ => incoming.holds assignment

def valuesIn (assignment : Assignment) (connective : Connective) (operand : Operand) :
    List Bool :=
  Rule.recipientValues assignment (operand.recipientsIn connective) ++
    (operand.partsIn connective).map (Rule.holds assignment)

theorem holds_asRule (assignment : Assignment) (operand : Operand) :
    operand.asRule.holds assignment = operand.holds assignment := by
  cases operand with
  | recipient lone =>
      simp [asRule, holds, Rule.holds_eq, Rule.single, Rule.recipientValues, Connective.holds]
  | rule incoming depth =>
      rfl

theorem holds_valuesIn (assignment : Assignment) (connective : Connective) (operand : Operand) :
    connective.holds (operand.valuesIn assignment connective) =
      connective.holds [operand.holds assignment] := by
  cases operand with
  | recipient lone =>
      rfl
  | rule incoming depth =>
      cases habsorbs : connective.absorbs incoming.connective with
      | true =>
          rcases Connective.absorbs_iff.mp habsorbs with ⟨hsame, hbinary⟩
          simp only [valuesIn, recipientsIn, partsIn, habsorbs, if_true]
          rw [Connective.holds_single hbinary, holds, Rule.holds_eq, hsame]
      | false =>
          simp [valuesIn, recipientsIn, partsIn, habsorbs, Rule.recipientValues, holds]

end Operand

/-!
## The value of a joined node
-/

theorem holds_joined (assignment : Assignment) (connective : Connective)
    (operands : List Operand) :
    (joined connective operands).1.holds assignment =
      connective.holds (operands.map (Operand.holds assignment)) := by
  rw [Rule.holds_eq, joined_rule]
  induction operands with
  | nil =>
      rfl
  | cons operand rest ih =>
      have hsplit := connective.holds_append (operand.holds_valuesIn assignment connective) ih
      refine Eq.trans ?_ hsplit
      -- The node holds all recipients in front of all parts, whichever operand brought them.
      apply connective.holds_of_perm
      simp only [Operand.valuesIn, Rule.recipientValues, List.flatMap_cons, List.map_append,
        List.append_assoc]
      exact (List.perm_append_comm_assoc _ _ _).append_left _

/-!
## Values of terms
-/

namespace Term

def holds (assignment : Assignment) : Term -> Bool
  | recipient lone => assignment lone.identity
  | negation inner => Connective.not.holds [inner.holds assignment]
  | joined junction left right =>
      junction.connective.holds [left.holds assignment, right.holds assignment]

theorem holds_operand (assignment : Assignment) (term : Term) :
    term.operand.holds assignment = term.holds assignment := by
  induction term with
  | recipient lone =>
      rfl
  | negation inner ih =>
      rw [operand, join, Operand.holds, holds_joined, holds, List.map_singleton, ih]
  | joined junction left right ihLeft ihRight =>
      rw [operand, join, Operand.holds, holds_joined, holds, List.map_cons, List.map_singleton,
        ihLeft, ihRight]

theorem holds_rule (assignment : Assignment) (term : Term) :
    term.rule.holds assignment = term.holds assignment := by
  rw [rule, Operand.holds_asRule, holds_operand]

/-- The tokens of a term put its value on the stack. -/
theorem evaluate_tokens (assignment : Assignment) (term : Term) :
    forall values later,
      evaluate assignment values (term.tokens ++ later) =
        evaluate assignment (term.holds assignment :: values) later := by
  induction term with
  | recipient lone =>
      intro values later
      rfl
  | negation inner ih =>
      intro values later
      rw [tokens, List.append_assoc, ih]
      simp [evaluate, evaluateToken, holds, Connective.holds]
  | joined junction left right ihLeft ihRight =>
      intro values later
      rw [tokens, List.append_assoc, List.append_assoc, ihLeft, ihRight]
      cases junction <;>
        simp [evaluate, evaluateToken, holds, Connective.holds, Junction.connective]

end Term

/-- Evaluating the tokens of an accepted expression leaves exactly one value, and
the rule has it. Its negations have a single operand each, as readings do. -/
theorem evaluate_eq_holds_of_parse {limit : Nat} {text : String} {rule : Rule}
    (h : parse limit text = .ok rule) :
    rule.isReadable = true ∧
      exists tokens,
        tokensOf (Text.words text) = .ok tokens ∧
          forall assignment,
            evaluate assignment [] tokens = some [rule.holds assignment] := by
  rcases parse_eq_ok_iff.mp h with ⟨term, hterm, -, rfl⟩
  constructor
  · exact term.isReadable_rule
  · refine ⟨term.tokens, hterm, ?_⟩
    intro assignment
    have hrun := term.evaluate_tokens assignment [] []
    rw [List.append_nil] at hrun
    rw [hrun, term.holds_rule]
    rfl

theorem evaluate_eq_holds_of_parse_spliced :
    exists rule,
      parse 2 "U:a U:b U:c OR OR NOT" = .ok rule ∧
        rule.isReadable = true ∧
          exists tokens,
            tokensOf (Text.words "U:a U:b U:c OR OR NOT") = .ok tokens ∧
              forall assignment,
                evaluate assignment [] tokens = some [rule.holds assignment] := by
  have h : parse 2 "U:a U:b U:c OR OR NOT" =
      .ok ⟨.not, [], [⟨.or, [⟨.user, "a", "U:a", rfl⟩, ⟨.user, "b", "U:b", rfl⟩,
        ⟨.user, "c", "U:c", rfl⟩], []⟩]⟩ := rfl
  exact ⟨_, h, evaluate_eq_holds_of_parse h⟩

end Expression
end AccessRules
