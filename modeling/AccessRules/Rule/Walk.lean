import AccessRules.Rule.Comparison
import AccessRules.Rule.Rows

/-!
# Walks through a rule

A walk keeps the nodes that are still to be met on a stack, and a comparison keeps pairs of nodes
on one.
-/

namespace AccessRules
namespace Rule

def atDepth (depth : Nat) (rules : List Rule) : List (Nat × Rule) :=
  rules.map fun rule => (depth, rule)

@[simp] theorem map_snd_atDepth (depth : Nat) (rules : List Rule) :
    (atDepth depth rules).map Prod.snd = rules := by
  rw [atDepth, List.map_map]
  exact List.map_id' rules

/-- The first part of a node comes to lie on top. -/
def walkFrom : List (Nat × Rule) -> List (Nat × Rule)
  | [] => []
  | (depth, node) :: later => (depth, node) :: walkFrom (atDepth (depth + 1) node.parts ++ later)
termination_by stack => nodeCountAll (stack.map Prod.snd)
decreasing_by
  have hnode := nodeCount_eq node
  simp [nodeCountAll, hnode]

def walk (rule : Rule) : List (Nat × Rule) :=
  walkFrom [(0, rule)]

def rowOf (met : Nat × Rule) : Row :=
  ⟨met.1, met.2.connective, met.2.recipients⟩

/-!
## Comparing pairs
-/

def pushPairs : List Rule -> List Rule -> List (Rule × Rule) -> List (Rule × Rule)
  | part :: rest, other :: others, stack => pushPairs rest others ((part, other) :: stack)
  | _, _, stack => stack

theorem nodeCountAll_pushPairs_le (parts others : List Rule) (stack : List (Rule × Rule)) :
    nodeCountAll ((pushPairs parts others stack).map Prod.fst) ≤
      nodeCountAll parts + nodeCountAll (stack.map Prod.fst) := by
  induction parts generalizing others stack with
  | nil =>
      rw [pushPairs]
      · exact Nat.le_add_left _ _
      · exact nofun
  | cons part rest ih =>
      cases others with
      | nil =>
          rw [pushPairs]
          · exact Nat.le_add_left _ _
          · exact nofun
      | cons other others =>
          have hrest : nodeCountAll ((pushPairs rest others ((part, other) :: stack)).map Prod.fst) ≤
              nodeCountAll rest + (part.nodeCount + nodeCountAll (stack.map Prod.fst)) :=
            ih others ((part, other) :: stack)
          rw [pushPairs, nodeCountAll]
          omega

/-- Compare the pairs of nodes on a stack, the top of which is in front, and all nodes below them.
The pair of the last parts comes to lie on top. -/
def agreeFrom : List (Rule × Rule) -> Bool
  | [] => true
  | (a, b) :: later =>
      if sameNode a b then agreeFrom (pushPairs a.parts b.parts later) else false
termination_by stack => nodeCountAll (stack.map Prod.fst)
decreasing_by
  have hnode := nodeCount_eq a
  have hpushed := nodeCountAll_pushPairs_le a.parts b.parts later
  simp only [List.map_cons, nodeCountAll]
  omega

end Rule
end AccessRules
