import AccessRules.Rule.Layout

/-!
# Rules as postfix tokens

The keyword of a binary connective follows every operand but the first, and the keyword of
negation follows every operand.
-/

namespace AccessRules
namespace Rule

def leadingKeyword (connective : Connective) : List String :=
  if connective.isUnary then [connective.keyword] else []

def spellOperands (connective : Connective) : List (Piece String) -> List (Piece String)
  | [] => []
  | first :: rest =>
      first :: ((leadingKeyword connective).map .output ++
        rest.flatMap fun operand => [operand, .output connective.keyword])

def spellNode (rule : Rule) : List (Piece String) :=
  spellOperands rule.connective
    (rule.recipients.map (fun recipient => .output recipient.token) ++
      rule.parts.map .part)

theorem partsOf_spellOperands (connective : Connective) (operands : List (Piece String)) :
    Piece.partsOf (spellOperands connective operands) = Piece.partsOf operands := by
  cases operands with
  | nil => rfl
  | cons first rest =>
      have hrest : Piece.partsOf
          (rest.flatMap fun operand => [operand, Piece.output connective.keyword]) =
            Piece.partsOf rest := by
        induction rest with
        | nil => rfl
        | cons operand rest ih =>
            cases operand <;> simp [ih]
      have hoperands : Piece.partsOf ((leadingKeyword connective).map Piece.output ++
          rest.flatMap fun operand => [operand, Piece.output connective.keyword]) =
            Piece.partsOf rest := by
        rw [Piece.partsOf_append, hrest]
        cases connective <;> rfl
      cases first with
      | output item =>
          simp [spellOperands, hoperands]
      | part rule =>
          simp [spellOperands, hoperands]

theorem partsOf_spellNode (rule : Rule) : Piece.partsOf (spellNode rule) = rule.parts := by
  simp [spellNode, partsOf_spellOperands]

def spelling : Layout String :=
  ⟨spellNode, partsOf_spellNode⟩

def tokens (rule : Rule) : List String :=
  spelling.write rule

def spell (rule : Rule) : String :=
  " ".intercalate rule.tokens

/-!
## The spelling along the tree
-/

def joinOperands (connective : Connective) : List (List String) -> List String
  | [] => []
  | first :: rest =>
      first ++ leadingKeyword connective ++
        rest.flatMap fun operand => operand ++ [connective.keyword]

mutual

def spelledTree : Rule -> List String
  | ⟨connective, recipients, parts⟩ =>
      joinOperands connective
        (recipients.map (fun recipient => [recipient.token]) ++ spelledTrees parts)

def spelledTrees : List Rule -> List (List String)
  | [] => []
  | rule :: rest => spelledTree rule :: spelledTrees rest

end

end Rule
end AccessRules
