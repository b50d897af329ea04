import AccessRules.Expression.Term
import AccessRules.Rule.Meaning

/-!
# Evaluating expressions token by token

An expression can be evaluated on a stack of values, without building a rule.
-/

namespace AccessRules
namespace Expression

def evaluateToken (assignment : Assignment) (values : List Bool) :
    Token -> Option (List Bool)
  | .recipient recipient => some (assignment recipient.identity :: values)
  | .connective .not =>
      match values with
      | value :: rest => some ((!value) :: rest)
      | _ => none
  | .connective .and =>
      match values with
      | later :: earlier :: rest => some ((earlier && later) :: rest)
      | _ => none
  | .connective .or =>
      match values with
      | later :: earlier :: rest => some ((earlier || later) :: rest)
      | _ => none

def evaluate (assignment : Assignment) (values : List Bool) :
    List Token -> Option (List Bool)
  | [] => some values
  | token :: rest =>
      match evaluateToken assignment values token with
      | some values => evaluate assignment values rest
      | none => none

/-!
## Counting operands

Each recipient adds an operand, and each binary connective takes one away.
-/

def isRecipientToken : Token -> Bool
  | .recipient _ => true
  | .connective _ => false

def isJunctionToken : Token -> Bool
  | .recipient _ => false
  | .connective connective => !connective.isUnary

def isConnectiveToken : Token -> Bool
  | .recipient _ => false
  | .connective _ => true

/-- The number of waiting operands, which is negative where operands have been
missing. -/
def waiting (tokens : List Token) : Int :=
  (tokens.countP isRecipientToken : Int) - (tokens.countP isJunctionToken : Int)

/-- At the position stands a connective that joins more operands than wait before it. -/
def ShortAt (tokens : List Token) (position : Nat) (connective : Connective) : Prop :=
  tokens[position]? = some (.connective connective) ∧
    waiting (tokens.take position) < connective.arity

def FirstShortAt (tokens : List Token) (position : Nat) (connective : Connective) : Prop :=
  ShortAt tokens position connective ∧
    forall earlier other, earlier < position -> ¬ ShortAt tokens earlier other

def Supplied (tokens : List Token) : Prop :=
  forall position connective, ¬ ShortAt tokens position connective

end Expression
end AccessRules
