import AccessRules.Expression.Reading

/-!
# Terms that expressions spell

Before any operands are spliced, an expression stands for a term in which every junction has two
operands.
-/

namespace AccessRules
namespace Expression

inductive Junction where
  | and
  | or
deriving DecidableEq, Repr

def Junction.connective : Junction -> Connective
  | and => .and
  | or => .or

inductive Term where
  | recipient (recipient : Recipient)
  | negation (operand : Term)
  | joined (junction : Junction) (left right : Term)
deriving DecidableEq

namespace Term

def tokens : Term -> List Token
  | recipient lone => [.recipient lone]
  | negation operand => operand.tokens ++ [.connective .not]
  | joined junction left right =>
      left.tokens ++ right.tokens ++ [.connective junction.connective]

/-- The words of a text are the tokens of the term. -/
def SpelledBy (term : Term) (text : String) : Prop :=
  tokensOf (Text.words text) = .ok term.tokens

/-!
## Rearrangement

Rearranged terms differ in the order and the grouping of operands under equal junctions only.
-/

inductive Rearranged : Term -> Term -> Prop where
  | refl (term : Term) : Rearranged term term
  | symm {a b : Term} : Rearranged a b -> Rearranged b a
  | trans {a b c : Term} : Rearranged a b -> Rearranged b c -> Rearranged a c
  | negation {a b : Term} : Rearranged a b -> Rearranged (.negation a) (.negation b)
  | joined (junction : Junction) {a b c d : Term} :
      Rearranged a b -> Rearranged c d ->
        Rearranged (.joined junction a c) (.joined junction b d)
  | swap (junction : Junction) (a b : Term) :
      Rearranged (.joined junction a b) (.joined junction b a)
  | regroup (junction : Junction) (a b c : Term) :
      Rearranged (.joined junction (.joined junction a b) c)
        (.joined junction a (.joined junction b c))

end Term
end Expression
end AccessRules
