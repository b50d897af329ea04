/-!
# Connectives

Conjunction and disjunction join two operands and take in the operands of a neighbouring node of
the same connective. Negation has one operand and never does.
-/

namespace AccessRules

inductive Connective where
  | and
  | or
  | not
deriving DecidableEq, Repr, Inhabited, Hashable

namespace Connective

def all : List Connective := [and, or, not]

def keyword : Connective -> String
  | and => "AND"
  | or => "OR"
  | not => "NOT"

def ofKeyword? (word : String) : Option Connective :=
  all.find? fun connective => connective.keyword = word

def arity : Connective -> Nat
  | and => 2
  | or => 2
  | not => 1

def isUnary (connective : Connective) : Bool :=
  connective.arity = 1

/-- Whether a node takes in the operands of the other one instead of holding it as a part. -/
def absorbs (connective incoming : Connective) : Bool :=
  connective = incoming && !connective.isUnary

@[simp] theorem ofKeyword?_keyword (connective : Connective) :
    ofKeyword? connective.keyword = some connective := by
  cases connective <;> rfl

theorem ofKeyword?_eq_some_iff {word : String} {connective : Connective} :
    ofKeyword? word = some connective ↔ word = connective.keyword := by
  constructor
  · intro h
    have := List.find?_some h
    simpa using (of_decide_eq_true this).symm
  · rintro rfl
    exact ofKeyword?_keyword connective

theorem absorbs_iff {connective incoming : Connective} :
    connective.absorbs incoming = true ↔ connective = incoming ∧ connective ≠ .not := by
  cases connective <;> cases incoming <;> decide

end Connective
end AccessRules
