import AccessRules.Rule.Fold
import Std.Data.HashMap

/-!
# Rules up to the order of their operands

The shape of a node is its connective, its sorted recipients and the sorted numbers of the shapes
of its parts. Every shape gets a number of its own, so that comparing numbers takes the place of
a search for a pairing.
-/

namespace AccessRules
namespace Rule

structure Shape where
  connective : Connective
  recipients : List (Kind × String)
  parts : List Nat
deriving DecidableEq, Hashable

abbrev ShapeTable := Std.HashMap Shape Nat

def identityInOrder (a b : Kind × String) : Bool :=
  (Recipient.compareIdentity a b).isLE

def shapeOf (node : Rule) (parts : List Nat) : Shape where
  connective := node.connective
  recipients := (node.recipients.map Recipient.identity).mergeSort identityInOrder
  parts := parts.mergeSort (· ≤ ·)

/-- A shape that is not in the table yet gets the next number. -/
def numberShape (table : ShapeTable) (node : Rule) (parts : List Nat) :
    ShapeTable × Nat :=
  let shape := shapeOf node parts
  match table[shape]? with
  | some number => (table, number)
  | none =>
      let number := table.size
      (table.insert shape number, number)

def isEquivalent (a b : Rule) : Bool :=
  let first := foldUpWith numberShape {} a
  let second := foldUpWith numberShape first.1 b
  first.2 = second.2

/-!
## Equivalence as a relation
-/

mutual

inductive Equivalent : Rule -> Rule -> Prop where
  | node {a b : Rule} (others : List Rule)
      (sameConnective : a.connective = b.connective)
      (sameRecipients :
        (a.recipients.map Recipient.identity).Perm (b.recipients.map Recipient.identity))
      (reordered : others.Perm b.parts)
      (paired : PairwiseEquivalent a.parts others) : Equivalent a b

inductive PairwiseEquivalent : List Rule -> List Rule -> Prop where
  | nil : PairwiseEquivalent [] []
  | cons {a b : Rule} {as bs : List Rule} (first : Equivalent a b)
      (later : PairwiseEquivalent as bs) : PairwiseEquivalent (a :: as) (b :: bs)

end

end Rule
end AccessRules
