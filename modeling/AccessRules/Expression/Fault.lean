import AccessRules.Expression.Token

/-!
# Why an expression is no rule

Faulty words come before everything else, and faults of structure are reported at the first
token that shows one.
-/

namespace AccessRules
namespace Expression

inductive Fault where
  | badTokens (faults : List TokenFault)
  | noTokens
  | missingOperands (connective : Connective) (position required available : Nat)
  | unjoinedOperands (count : Nat)
  | tooDeep (limit : Nat)
deriving DecidableEq, Repr

namespace Fault

def quoted (word : String) : String :=
  "`" ++ word ++ "`"

def message : Fault -> String
  | badTokens faults =>
      "invalid recipient tokens: " ++
        ", ".intercalate (faults.map fun fault => quoted fault.word)
  | noTokens => "ACL expression is empty"
  | missingOperands connective position required available =>
      "operator " ++ connective.keyword ++ " at token " ++ toString position ++
        " needs " ++ toString required ++ " operand(s) but " ++ toString available ++
        " available"
  | unjoinedOperands count =>
      toString count ++ " operands remain without an operator to combine them"
  | tooDeep limit =>
      "expression nesting exceeds the maximum depth of " ++ toString limit

end Fault

end Expression
end AccessRules
