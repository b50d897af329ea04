import AccessRules.Expression.Operand
import AccessRules.Rule.NormalForm
import AccessRules.Rule.Spelling

/-!
# Reading expressions

Words become tokens, the tokens are run on a stack, and the operand that is left is the rule.
-/

namespace AccessRules
namespace Expression

def defaultLimit : Nat := 10000

def tokensOf (words : List String) : Except Fault (List Token) :=
  match tokenFaults words with
  | [] => if words.isEmpty then .error .noTokens else .ok (words.filterMap Token.read?)
  | faults => .error (.badTokens faults)

def ruleOf (limit : Nat) (words : List String) : Except Fault Rule := do
  let tokens ← tokensOf words
  let stack ← run limit 0 [] tokens
  finish stack

def parse (limit : Nat) (text : String) : Except Fault Rule :=
  ruleOf limit (Text.words text)

def canonicalText (limit : Nat) (text : String) : Except Fault String :=
  (parse limit text).map fun rule => rule.normalForm.spell

end Expression
end AccessRules
