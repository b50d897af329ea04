import AccessRules.Rule.Basic

/-!
# Folding rules from the bottom up

A fold visits the nodes from left to right, parts before their node, and threads a state through
the visits. The visits under way are kept in a list, each with the values of the parts that are
done, newest first.
-/

namespace AccessRules
namespace Rule

structure Visit (β : Type) where
  node : Rule
  pending : List Rule
  done : List β

namespace Visit

def start (node : Rule) : Visit β :=
  ⟨node, node.parts, []⟩

/-- The work that a visit still has to do: one step for its end, and two for
each node below it, which is entered and left once. -/
def weight (visit : Visit β) : Nat :=
  2 * nodeCountAll visit.pending + 1

end Visit

def continueFold (finish : σ -> Rule -> List β -> σ × β) (state : σ)
    (visit : Visit β) (around : List (Visit β)) : σ × β :=
  match _pending : visit.pending with
  | part :: rest =>
      continueFold finish state (.start part) ({ visit with pending := rest } :: around)
  | [] =>
      let result := finish state visit.node visit.done.reverse
      match around with
      | [] => result
      | outer :: further =>
          continueFold finish result.1 { outer with done := result.2 :: outer.done } further
termination_by visit.weight + (around.map Visit.weight).foldr (· + ·) 0
decreasing_by
  · have := nodeCount_eq part
    simp only [Visit.weight, Visit.start, _pending, nodeCountAll, List.map_cons, List.foldr_cons]
    omega
  · simp only [Visit.weight, _pending, nodeCountAll, List.map_cons, List.foldr_cons]
    omega

/-- `finish` receives the state, a node and the values of its parts, in order. -/
def foldUpWith (finish : σ -> Rule -> List β -> σ × β) (state : σ) (rule : Rule) : σ × β :=
  continueFold finish state (.start rule) []

def foldUp (finish : Rule -> List β -> β) (rule : Rule) : β :=
  (foldUpWith (fun _ node values => ((), finish node values)) () rule).2

def copy (rule : Rule) : Rule :=
  rule.foldUp fun node parts => { node with parts }

/-!
## The fold along the tree
-/

mutual

def foldTree (finish : σ -> Rule -> List β -> σ × β) (state : σ) : Rule -> σ × β
  | ⟨connective, recipients, parts⟩ =>
      let folded := foldTrees finish state parts
      finish folded.1 ⟨connective, recipients, parts⟩ folded.2

def foldTrees (finish : σ -> Rule -> List β -> σ × β) (state : σ) :
    List Rule -> σ × List β
  | [] => (state, [])
  | rule :: rest =>
      let first := foldTree finish state rule
      let later := foldTrees finish first.1 rest
      (later.1, first.2 :: later.2)

end

/-!
## The loop and the recursion agree

The loop that enters a rule comes back to the visit around it with the value of the recursion.
-/

theorem continueFold_enter (finish : σ -> Rule -> List β -> σ × β) (state : σ)
    (node part : Rule) (rest : List Rule) (done : List β) (around : List (Visit β)) :
    continueFold finish state ⟨node, part :: rest, done⟩ around =
      continueFold finish state (.start part) (⟨node, rest, done⟩ :: around) := by
  rw [continueFold]

theorem continueFold_last (finish : σ -> Rule -> List β -> σ × β) (state : σ)
    (node : Rule) (done : List β) :
    continueFold finish state ⟨node, [], done⟩ [] = finish state node done.reverse := by
  rw [continueFold]

theorem continueFold_leave (finish : σ -> Rule -> List β -> σ × β) (state : σ)
    (node : Rule) (done : List β) (outer : Visit β) (around : List (Visit β)) :
    continueFold finish state ⟨node, [], done⟩ (outer :: around) =
      let result := finish state node done.reverse
      continueFold finish result.1 { outer with done := result.2 :: outer.done } around := by
  rw [continueFold]

mutual

theorem continueFold_start (finish : σ -> Rule -> List β -> σ × β) (state : σ)
    (outer : Visit β) (around : List (Visit β)) :
    (rule : Rule) ->
      continueFold finish state (.start rule) (outer :: around) =
        let result := foldTree finish state rule
        continueFold finish result.1 { outer with done := result.2 :: outer.done } around
  | ⟨connective, recipients, parts⟩ => by
      rw [Visit.start, continueFold_parts finish state _ [] (outer :: around) parts,
        continueFold_leave]
      simp [foldTree]

theorem continueFold_parts (finish : σ -> Rule -> List β -> σ × β) (state : σ)
    (node : Rule) (done : List β) (around : List (Visit β)) :
    (parts : List Rule) ->
      continueFold finish state ⟨node, parts, done⟩ around =
        let results := foldTrees finish state parts
        continueFold finish results.1 ⟨node, [], results.2.reverse ++ done⟩ around
  | [] => by
      simp [foldTrees]
  | part :: rest => by
      rw [continueFold_enter, continueFold_start finish state _ _ part,
        continueFold_parts finish _ node _ around rest]
      simp [foldTrees]

end

theorem continueFold_root (finish : σ -> Rule -> List β -> σ × β) (state : σ) (rule : Rule) :
    continueFold finish state (.start rule) [] = foldTree finish state rule := by
  rw [Visit.start, continueFold_parts, continueFold_last]
  cases rule
  simp [foldTree]

end Rule
end AccessRules
