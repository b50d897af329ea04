import AccessRules.Expression.Fault
import AccessRules.Rule.Basic

/-!
# Joining operands from a stack

A recipient waits on a stack, and a connective joins the operands that it takes off. An operand
that has been joined carries its depth, so that the limit is checked without looking at the rule
again.
-/

namespace AccessRules
namespace Expression

inductive Operand where
  | recipient (recipient : Recipient)
  | rule (rule : Rule) (depth : Nat)

/-- Add an operand to a node whose depth is known. A spliced rule brings its
own depth and any other rule one level more. -/
def Operand.joinTo (node : Rule × Nat) : Operand -> Rule × Nat
  | .recipient lone => (node.1.addRecipient lone, node.2)
  | .rule incoming depth =>
      let reached :=
        if node.1.connective.absorbs incoming.connective then depth else depth + 1
      (node.1.combine incoming, max node.2 reached)

def joined (connective : Connective) (operands : List Operand) : Rule × Nat :=
  operands.foldl Operand.joinTo (Rule.bare connective, 1)

def step (limit position : Nat) (stack : List Operand) :
    Token -> Except Fault (List Operand)
  | .recipient recipient => .ok (.recipient recipient :: stack)
  | .connective connective =>
      let operands := stack.take connective.arity
      if operands.length < connective.arity then
        .error (.missingOperands connective position connective.arity operands.length)
      else
        let node := joined connective operands.reverse
        if limit < node.2 then .error (.tooDeep limit)
        else .ok (.rule node.1 node.2 :: stack.drop connective.arity)

def run (limit position : Nat) (stack : List Operand) :
    List Token -> Except Fault (List Operand)
  | [] => .ok stack
  | token :: rest =>
      match step limit position stack token with
      | .ok stack => run limit (position + 1) stack rest
      | .error fault => .error fault

/-- The rule that is left when all tokens are taken. A recipient that no
connective has joined becomes a disjunction of one. -/
def finish : List Operand -> Except Fault Rule
  | [] => .error .noTokens
  | [.recipient recipient] => .ok (Rule.single .or recipient)
  | [.rule rule _] => .ok rule
  | stack => .error (.unjoinedOperands stack.length)

theorem run_append (limit position : Nat) (stack : List Operand) (first second : List Token) :
    run limit position stack (first ++ second) =
      (run limit position stack first).bind fun stack =>
        run limit (position + first.length) stack second := by
  induction first generalizing position stack with
  | nil => rfl
  | cons token rest ih =>
      simp only [List.cons_append, run, List.length_cons]
      split
      · rw [ih, Nat.add_assoc, Nat.add_comm 1]
      · rfl

end Expression
end AccessRules
