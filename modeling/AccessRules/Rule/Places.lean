import AccessRules.Rule.Labels

/-!
# Places in a rule

A place is told by the part to enter at each level on the way down from the root.
-/

namespace AccessRules

abbrev Place := List Nat

namespace Rule

def nodeAt? : Place -> Rule -> Option Rule
  | [], rule => some rule
  | number :: below, rule => rule.parts[number]?.bind (nodeAt? below)

def changeAt (change : Rule -> Rule) : Place -> Rule -> Rule
  | [], rule => change rule
  | number :: below, rule =>
      { rule with parts := rule.parts.modify number (changeAt change below) }

/-!
## Labelling in place

The foremost pending node is labelled in the copy, and its parts are put in front of the others.
-/

def pushParts (place : Place) :
    Nat -> List Rule -> List (Place × Rule) -> List (Place × Rule)
  | _, [], pending => pending
  | number, part :: rest, pending =>
      pushParts place (number + 1) rest ((place ++ [number], part) :: pending)

theorem nodeCountAll_pushParts (place : Place) (number : Nat) (parts : List Rule)
    (pending : List (Place × Rule)) :
    nodeCountAll ((pushParts place number parts pending).map Prod.snd) =
      nodeCountAll parts + nodeCountAll (pending.map Prod.snd) := by
  induction parts generalizing number pending with
  | nil =>
      rw [pushParts, nodeCountAll, Nat.zero_add]
  | cons part rest ih =>
      rw [pushParts, ih, nodeCountAll, Nat.add_comm (nodeCount part), Nat.add_assoc]
      rfl

def labelNode (naming : Naming) (node : Rule) : Rule :=
  namedNode naming node node.parts

/-- Label the nodes at some places in a rule, and all nodes below them. -/
def labelPlaces (naming : Naming) : List (Place × Rule) -> Rule -> Rule
  | [], rule => rule
  | (place, node) :: later, rule =>
      labelPlaces naming (pushParts place 0 node.parts later)
        (rule.changeAt (labelNode naming) place)
termination_by pending => nodeCountAll (pending.map Prod.snd)
decreasing_by
  have hnode := nodeCount_eq node
  rw [nodeCountAll_pushParts, List.map_cons, nodeCountAll, hnode]
  omega

def labelInPlace (naming : Naming) (rule : Rule) : Rule :=
  labelPlaces naming [([], rule.copy)] rule.copy

end Rule
end AccessRules
