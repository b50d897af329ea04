import Mathlib.Algebra.Ring.Nat
import Mathlib.Logic.Function.Iterate
import AccessRules.Rule.Fold
import AccessRules.Rule.Places

/-!
# The calls of a fold

A fold finishes every node of a rule once, from the left to the right and the parts before their
node. To see this, the finishing function is made to keep a list of its calls. Each call belongs
to a place in the rule. What a node is given are the values of the calls at the places of its
parts, and each call goes on with the state that the call before it has left.
-/

namespace AccessRules

/-- The order in which the nodes at two places are finished: what is below a place comes before
the place, and what is below one part before what is below the next. -/
def Place.FinishedBefore : Place -> Place -> Prop
  | [], _ => False
  | _ :: _, [] => True
  | number :: below, other :: otherBelow =>
      number < other ∨ (number = other ∧ Place.FinishedBefore below otherBelow)

theorem Place.not_finishedBefore_self (place : Place) : ¬ place.FinishedBefore place := by
  induction place with
  | nil =>
      exact id
  | cons number below ih =>
      rintro (hlt | ⟨-, hbelow⟩)
      · exact Nat.lt_irrefl number hlt
      · exact ih hbelow

namespace Rule

variable {σ β : Type}

/-!
## Turns of the loop

Every node below the root is entered by one turn and left by another one. The root is only left.
-/

/-- A fold with the innermost visit and the visits around it, or with its result. -/
inductive Folding (σ β : Type) where
  | underWay (state : σ) (visit : Visit β) (around : List (Visit β))
  | ended (result : σ × β)

/-- One turn of the loop: enter the next part of the innermost visit or leave its node. -/
def Folding.turn (finish : σ -> Rule -> List β -> σ × β) : Folding σ β -> Folding σ β
  | .underWay state ⟨node, part :: rest, done⟩ around =>
      .underWay state (.start part) (⟨node, rest, done⟩ :: around)
  | .underWay state ⟨node, [], done⟩ [] => .ended (finish state node done.reverse)
  | .underWay state ⟨node, [], done⟩ (outer :: around) =>
      let result := finish state node done.reverse
      .underWay result.1 { outer with done := result.2 :: outer.done } around
  | .ended result => .ended result

/-- What a fold comes to when the loop continues it. -/
def Folding.outcome (finish : σ -> Rule -> List β -> σ × β) : Folding σ β -> σ × β
  | .underWay state visit around => continueFold finish state visit around
  | .ended result => result

@[simp] theorem Folding.outcome_turn (finish : σ -> Rule -> List β -> σ × β)
    (folding : Folding σ β) :
    (folding.turn finish).outcome finish = folding.outcome finish := by
  cases folding with
  | ended result =>
      rfl
  | underWay state visit around =>
      rcases visit with ⟨node, pending, done⟩
      cases pending with
      | cons part rest =>
          exact (continueFold_enter finish state node part rest done around).symm
      | nil =>
          cases around with
          | nil =>
              exact (continueFold_last finish state node done).symm
          | cons outer around =>
              exact (continueFold_leave finish state node done outer around).symm

theorem Folding.outcome_turns (finish : σ -> Rule -> List β -> σ × β) (count : Nat)
    (folding : Folding σ β) :
    ((Folding.turn finish)^[count] folding).outcome finish = folding.outcome finish := by
  induction count generalizing folding with
  | zero =>
      rfl
  | succ count ih =>
      rw [Function.iterate_succ_apply, ih, Folding.outcome_turn]

mutual

theorem turns_part (finish : σ -> Rule -> List β -> σ × β) (state : σ) (node : Rule)
    (rest : List Rule) (done : List β) (around : List (Visit β)) :
    (part : Rule) ->
      (Folding.turn finish)^[2 * part.nodeCount]
          (.underWay state ⟨node, part :: rest, done⟩ around) =
        let result := foldTree finish state part
        .underWay result.1 ⟨node, rest, result.2 :: done⟩ around
  | ⟨connective, recipients, parts⟩ => by
      have hparts := turns_parts finish state ⟨connective, recipients, parts⟩ []
        (⟨node, rest, done⟩ :: around) parts
      rw [nodeCount, Nat.mul_succ, Function.iterate_succ_apply, Function.iterate_succ_apply']
      simp only [Folding.turn, Visit.start, hparts, foldTree, List.append_nil, List.reverse_reverse]

theorem turns_parts (finish : σ -> Rule -> List β -> σ × β) (state : σ) (node : Rule)
    (done : List β) (around : List (Visit β)) :
    (parts : List Rule) ->
      (Folding.turn finish)^[2 * nodeCountAll parts] (.underWay state ⟨node, parts, done⟩ around) =
        let results := foldTrees finish state parts
        .underWay results.1 ⟨node, [], results.2.reverse ++ done⟩ around
  | [] => rfl
  | part :: rest => by
      rw [nodeCountAll, Nat.mul_add, Nat.add_comm, Function.iterate_add_apply,
        turns_part finish state node rest done around part, turns_parts finish _ node _ around rest]
      simp [foldTrees]

end

theorem turns_root (finish : σ -> Rule -> List β -> σ × β) (state : σ) (rule : Rule) :
    (Folding.turn finish)^[2 * rule.nodeCount - 1] (.underWay state (.start rule) []) =
      .ended (foldTree finish state rule) := by
  rcases rule with ⟨connective, recipients, parts⟩
  have hcount : 2 * (⟨connective, recipients, parts⟩ : Rule).nodeCount - 1 =
      2 * nodeCountAll parts + 1 := by
    rw [nodeCount]
    omega
  rw [hcount, Function.iterate_succ_apply', Visit.start, turns_parts]
  simp [Folding.turn, foldTree]

/-!
## Calls
-/

/-- A call of a finishing function: the state before it, the node with the values that are given
for its parts, and the state and the value that it answers with. -/
structure Call (σ β : Type) where
  before : σ
  node : Rule
  given : List β
  after : σ
  value : β

/-- The call for a node with some values. -/
def callFor (finish : σ -> Rule -> List β -> σ × β) (state : σ) (node : Rule) (given : List β) :
    Call σ β :=
  let result := finish state node given
  ⟨state, node, given, result.1, result.2⟩

/-- Finish nodes and keep a list of the calls. -/
def recording (finish : σ -> Rule -> List β -> σ × β) (kept : σ × List (Call σ β)) (node : Rule)
    (given : List β) : (σ × List (Call σ β)) × β :=
  let call := callFor finish kept.1 node given
  ((call.after, kept.2 ++ [call]), call.value)

/-- The call for the root of a rule. -/
def rootCall (finish : σ -> Rule -> List β -> σ × β) (state : σ) (rule : Rule) : Call σ β :=
  let folded := foldTrees finish state rule.parts
  callFor finish folded.1 rule folded.2

theorem foldTree_eq_rootCall (finish : σ -> Rule -> List β -> σ × β) (state : σ) (rule : Rule) :
    foldTree finish state rule =
      ((rootCall finish state rule).after, (rootCall finish state rule).value) := by
  cases rule
  rfl

mutual

/-- The calls for the nodes of a rule, each with the place of its node. -/
def callsAt (finish : σ -> Rule -> List β -> σ × β) (state : σ) :
    Rule -> List (Place × Call σ β)
  | ⟨connective, recipients, parts⟩ =>
      callsIn finish state 0 parts ++
        [([], rootCall finish state ⟨connective, recipients, parts⟩)]

/-- The calls for the nodes of some parts, the first of which has the given number. -/
def callsIn (finish : σ -> Rule -> List β -> σ × β) (state : σ) (number : Nat) :
    List Rule -> List (Place × Call σ β)
  | [] => []
  | part :: rest =>
      (callsAt finish state part).map (fun entry => (number :: entry.1, entry.2)) ++
        callsIn finish (foldTree finish state part).1 (number + 1) rest

end

mutual

theorem foldTree_recording (finish : σ -> Rule -> List β -> σ × β) (state : σ)
    (earlier : List (Call σ β)) :
    (rule : Rule) ->
      foldTree (recording finish) (state, earlier) rule =
        let result := foldTree finish state rule
        ((result.1, earlier ++ (callsAt finish state rule).map Prod.snd), result.2)
  | ⟨connective, recipients, parts⟩ => by
      rw [foldTree, foldTrees_recording finish state earlier 0 parts, callsAt, List.map_append,
        <- List.append_assoc]
      rfl

theorem foldTrees_recording (finish : σ -> Rule -> List β -> σ × β) (state : σ)
    (earlier : List (Call σ β)) (number : Nat) :
    (rules : List Rule) ->
      foldTrees (recording finish) (state, earlier) rules =
        let results := foldTrees finish state rules
        ((results.1, earlier ++ (callsIn finish state number rules).map Prod.snd), results.2)
  | [] => by
      simp [foldTrees, callsIn]
  | rule :: rest => by
      have hsnd : ((callsAt finish state rule).map fun entry =>
          (number :: entry.1, entry.2)).map Prod.snd = (callsAt finish state rule).map Prod.snd := by
        rw [List.map_map]
        rfl
      rw [foldTrees, foldTree_recording finish state earlier rule,
        foldTrees_recording finish _ _ (number + 1) rest, callsIn, List.map_append, hsnd,
        <- List.append_assoc]
      rfl

end

/-!
## Calls and places
-/

theorem mem_callsIn {finish : σ -> Rule -> List β -> σ × β} {state : σ} {number : Nat}
    {parts : List Rule} {entry : Place × Call σ β} :
    entry ∈ callsIn finish state number parts ↔
      exists index part below,
        parts[index]? = some part ∧
          below ∈ callsAt finish (foldTrees finish state (parts.take index)).1 part ∧
            entry = ((number + index) :: below.1, below.2) := by
  induction parts generalizing state number with
  | nil =>
      simp [callsIn]
  | cons part rest ih =>
      rw [callsIn, List.mem_append, List.mem_map, ih]
      constructor
      · rintro (⟨below, hbelow, rfl⟩ | ⟨index, other, below, hother, hbelow, rfl⟩)
        · exact ⟨0, part, below, rfl, hbelow, rfl⟩
        · exact ⟨index + 1, other, below, hother, hbelow,
            by rw [Nat.add_right_comm, Nat.add_assoc]⟩
      · rintro ⟨index, other, below, hother, hbelow, rfl⟩
        cases index with
        | zero =>
            cases hother
            exact .inl ⟨below, hbelow, rfl⟩
        | succ index =>
            exact .inr ⟨index, other, below, hother, hbelow,
              by rw [Nat.add_right_comm, Nat.add_assoc]⟩

theorem root_mem_callsAt {finish : σ -> Rule -> List β -> σ × β} {state : σ} {rule : Rule}
    {call : Call σ β} :
    ([], call) ∈ callsAt finish state rule ↔ call = rootCall finish state rule := by
  rcases rule with ⟨connective, recipients, parts⟩
  rw [callsAt, List.mem_append, List.mem_singleton, mem_callsIn]
  constructor
  · rintro (⟨index, part, below, -, -, hentry⟩ | hentry)
    · cases hentry
    · cases hentry
      rfl
  · rintro rfl
    exact .inr rfl

/-- Below a part there are the calls of the part, which starts with the state that the parts
before it have left. -/
theorem part_mem_callsAt {finish : σ -> Rule -> List β -> σ × β} {state : σ} {rule : Rule}
    {number : Nat} {below : Place} {call : Call σ β} :
    (number :: below, call) ∈ callsAt finish state rule ↔
      exists part,
        rule.parts[number]? = some part ∧
          (below, call) ∈
            callsAt finish (foldTrees finish state (rule.parts.take number)).1 part := by
  rcases rule with ⟨connective, recipients, parts⟩
  rw [callsAt, List.mem_append, List.mem_singleton, mem_callsIn]
  constructor
  · rintro (⟨index, part, entry, hpart, hmem, hentry⟩ | hentry)
    · rw [Nat.zero_add] at hentry
      cases hentry
      exact ⟨part, hpart, hmem⟩
    · cases hentry
  · rintro ⟨part, hpart, hmem⟩
    exact .inl ⟨number, part, (below, call), hpart, hmem, by rw [Nat.zero_add]⟩

/-- What is called at a place and below it are the calls of the node that stands there. -/
theorem exists_state_at (finish : σ -> Rule -> List β -> σ × β) (state : σ) {place : Place}
    {rule node : Rule} (h : nodeAt? place rule = some node) :
    exists start,
      forall below call,
        (place ++ below, call) ∈ callsAt finish state rule ↔
          (below, call) ∈ callsAt finish start node := by
  induction place generalizing state rule with
  | nil =>
      cases h
      exact ⟨state, fun below call => Iff.rfl⟩
  | cons number place ih =>
      rw [nodeAt?, Option.bind_eq_some_iff] at h
      rcases h with ⟨part, hpart, hnode⟩
      rcases ih (foldTrees finish state (rule.parts.take number)).1 hnode with ⟨start, hstart⟩
      refine ⟨start, fun below call => ?_⟩
      rw [List.cons_append, part_mem_callsAt, <- hstart below call, hpart]
      simp

theorem mem_map_callsAt {finish : σ -> Rule -> List β -> σ × β} {state : σ} {rule : Rule}
    {place : Place} :
    place ∈ (callsAt finish state rule).map Prod.fst ↔ (nodeAt? place rule).isSome = true := by
  rw [List.mem_map]
  constructor
  · rintro ⟨⟨place, call⟩, hcall, rfl⟩
    induction place generalizing rule state with
    | nil =>
        rfl
    | cons number below ih =>
        rcases part_mem_callsAt.mp hcall with ⟨part, hpart, hbelow⟩
        rw [nodeAt?, hpart]
        exact ih hbelow
  · intro h
    rcases Option.isSome_iff_exists.mp h with ⟨node, hnode⟩
    rcases exists_state_at finish state hnode with ⟨start, hstart⟩
    refine ⟨(place, rootCall finish start node), ?_, rfl⟩
    have hroot := (hstart [] (rootCall finish start node)).mpr (root_mem_callsAt.mpr rfl)
    rwa [List.append_nil] at hroot

/-!
## What is given for the parts
-/

@[simp] theorem length_foldTrees (finish : σ -> Rule -> List β -> σ × β) (state : σ)
    (rules : List Rule) :
    (foldTrees finish state rules).2.length = rules.length := by
  induction rules generalizing state with
  | nil =>
      rfl
  | cons rule rest ih =>
      rw [foldTrees, List.length_cons, List.length_cons, ih]

theorem getElem?_foldTrees (finish : σ -> Rule -> List β -> σ × β) (state : σ)
    (rules : List Rule) (number : Nat) :
    (foldTrees finish state rules).2[number]? =
      rules[number]?.map fun rule =>
        (foldTree finish (foldTrees finish state (rules.take number)).1 rule).2 := by
  induction rules generalizing state number with
  | nil =>
      rfl
  | cons rule rest ih =>
      cases number with
      | zero =>
          rfl
      | succ number =>
          exact ih (foldTree finish state rule).1 number

/-- A call is a right one when its node stands at its place, the finishing function answers as it
says, and the node is given the values of the calls for its parts, in their order. -/
structure Placed (finish : σ -> Rule -> List β -> σ × β) (rule : Rule)
    (placed : List (Place × Call σ β)) (place : Place) (call : Call σ β) : Prop where
  node_eq : nodeAt? place rule = some call.node
  answer : finish call.before call.node call.given = (call.after, call.value)
  length_given : call.given.length = call.node.parts.length
  given_eq (number : Nat) (below : Call σ β) :
    (place ++ [number], below) ∈ placed -> call.given[number]? = some below.value

theorem placed_of_mem_callsAt {finish : σ -> Rule -> List β -> σ × β} {state : σ} {rule : Rule}
    {place : Place} {call : Call σ β} (h : (place, call) ∈ callsAt finish state rule) :
    Placed finish rule (callsAt finish state rule) place call := by
  have hsome := mem_map_callsAt.mp (List.mem_map_of_mem (f := Prod.fst) h)
  rcases Option.isSome_iff_exists.mp hsome with ⟨node, hnode⟩
  rcases exists_state_at finish state hnode with ⟨start, hstart⟩
  have hroot := (hstart [] call).mp (by rwa [List.append_nil])
  rw [root_mem_callsAt] at hroot
  subst hroot
  refine ⟨hnode, rfl, length_foldTrees finish start node.parts, fun number below hbelow => ?_⟩
  rw [hstart, part_mem_callsAt] at hbelow
  rcases hbelow with ⟨part, hpart, hmem⟩
  rw [root_mem_callsAt] at hmem
  subst hmem
  show (foldTrees finish start node.parts).2[number]? = _
  rw [getElem?_foldTrees, hpart, Option.map_some, foldTree_eq_rootCall]

/-!
## The order of the calls
-/

mutual

theorem pairwise_callsAt (finish : σ -> Rule -> List β -> σ × β) (state : σ) :
    (rule : Rule) ->
      ((callsAt finish state rule).map Prod.fst).Pairwise Place.FinishedBefore
  | ⟨connective, recipients, parts⟩ => by
      rw [callsAt, List.map_append, List.pairwise_append]
      refine ⟨pairwise_callsIn finish state 0 parts, List.pairwise_singleton _ _, ?_⟩
      intro place hplace root hroot
      rcases List.mem_map.mp hplace with ⟨entry, hentry, rfl⟩
      rcases mem_callsIn.mp hentry with ⟨index, part, below, -, -, rfl⟩
      cases List.mem_singleton.mp hroot
      trivial

theorem pairwise_callsIn (finish : σ -> Rule -> List β -> σ × β) (state : σ) (number : Nat) :
    (parts : List Rule) ->
      ((callsIn finish state number parts).map Prod.fst).Pairwise Place.FinishedBefore
  | [] => .nil
  | part :: rest => by
      have hpart := pairwise_callsAt finish state part
      rw [callsIn, List.map_append, List.map_map, List.pairwise_append]
      refine ⟨?_, pairwise_callsIn finish _ (number + 1) rest, ?_⟩
      · rw [List.pairwise_map] at hpart ⊢
        exact hpart.imp fun hbefore => .inr ⟨rfl, hbefore⟩
      · intro place hplace other hother
        rcases List.mem_map.mp hplace with ⟨entry, -, rfl⟩
        rcases List.mem_map.mp hother with ⟨otherEntry, hotherEntry, rfl⟩
        rcases mem_callsIn.mp hotherEntry with ⟨index, sibling, below, -, -, rfl⟩
        exact .inl (Nat.lt_of_lt_of_le (Nat.lt_succ_self number) (Nat.le_add_right _ _))

end

theorem nodup_callsAt (finish : σ -> Rule -> List β -> σ × β) (state : σ) (rule : Rule) :
    ((callsAt finish state rule).map Prod.fst).Nodup := by
  apply (pairwise_callsAt finish state rule).imp
  rintro place other hbefore rfl
  exact place.not_finishedBefore_self hbefore

/-- Each call starts with the state that the one before it has left. -/
def Threaded (state : σ) : List (Call σ β) -> σ -> Prop
  | [], last => state = last
  | call :: later, last => call.before = state ∧ Threaded call.after later last

theorem threaded_append {state middle last : σ} {calls later : List (Call σ β)}
    (h : Threaded state calls middle) (hlater : Threaded middle later last) :
    Threaded state (calls ++ later) last := by
  induction calls generalizing state with
  | nil =>
      cases h
      exact hlater
  | cons call rest ih =>
      exact ⟨h.1, ih h.2⟩

mutual

theorem threaded_callsAt (finish : σ -> Rule -> List β -> σ × β) (state : σ) :
    (rule : Rule) ->
      Threaded state ((callsAt finish state rule).map Prod.snd) (foldTree finish state rule).1
  | ⟨connective, recipients, parts⟩ => by
      rw [callsAt, List.map_append]
      exact threaded_append (threaded_callsIn finish state 0 parts) ⟨rfl, rfl⟩

theorem threaded_callsIn (finish : σ -> Rule -> List β -> σ × β) (state : σ) (number : Nat) :
    (parts : List Rule) ->
      Threaded state ((callsIn finish state number parts).map Prod.snd)
        (foldTrees finish state parts).1
  | [] => rfl
  | part :: rest => by
      rw [callsIn, List.map_append, List.map_map]
      exact threaded_append (threaded_callsAt finish state part)
        (threaded_callsIn finish _ (number + 1) rest)

end

/-- No turn of the loop changes what the fold comes to, and after one turn for the root and two for
every other node the loop has come to its end, with what recursion on the tree gives. It calls the
finishing function once for the node at each place, in post-order, with the values of the calls
for the parts of the node and with the state that the call before has left, and it answers what
the call for the root has answered. -/
theorem fold_finishes_every_node_once (finish : σ -> Rule -> List β -> σ × β) (state : σ)
    (rule : Rule) :
    foldUpWith finish state rule = foldTree finish state rule ∧
      (forall count,
        ((Folding.turn finish)^[count] (.underWay state (.start rule) [])).outcome finish =
          foldUpWith finish state rule) ∧
      (Folding.turn finish)^[2 * rule.nodeCount - 1] (.underWay state (.start rule) []) =
        .ended (foldUpWith finish state rule) ∧
      exists placed : List (Place × Call σ β),
        foldUpWith (recording finish) (state, []) rule =
            (((foldUpWith finish state rule).1, placed.map Prod.snd),
              (foldUpWith finish state rule).2) ∧
          (placed.map Prod.fst).Nodup ∧
          (placed.map Prod.fst).Pairwise Place.FinishedBefore ∧
          (forall place, place ∈ placed.map Prod.fst ↔ (nodeAt? place rule).isSome = true) ∧
          (forall place call, (place, call) ∈ placed -> Placed finish rule placed place call) ∧
          Threaded state (placed.map Prod.snd) (foldUpWith finish state rule).1 ∧
          exists call,
            ([], call) ∈ placed ∧ foldUpWith finish state rule = (call.after, call.value) := by
  have hfold : foldUpWith finish state rule = foldTree finish state rule :=
    continueFold_root finish state rule
  refine ⟨hfold, ?_, ?_, callsAt finish state rule, ?_, nodup_callsAt finish state rule,
    pairwise_callsAt finish state rule,
    fun place => mem_map_callsAt, fun place call => placed_of_mem_callsAt, ?_,
    rootCall finish state rule, root_mem_callsAt.mpr rfl, ?_⟩
  · intro count
    rw [Folding.outcome_turns]
    rfl
  · rw [hfold, turns_root]
  · rw [foldUpWith, continueFold_root, foldTree_recording, hfold]
    rfl
  · rw [hfold]
    exact threaded_callsAt finish state rule
  · rw [hfold, foldTree_eq_rootCall]

theorem fold_finishes_every_node_once_nested :
    exists (count : List Connective -> Rule -> List Nat -> List Connective × Nat) (inner rule : Rule),
      (count = fun order node counts => (order ++ [node.connective], counts.sum + 1)) ∧
        inner = ⟨.and, [⟨.user, "b", "U:b", rfl⟩], [⟨.not, [⟨.user, "c", "U:c", rfl⟩], []⟩]⟩ ∧
        rule = ⟨.or, [⟨.user, "a", "U:a", rfl⟩],
          [inner, ⟨.not, [⟨.user, "d", "U:d", rfl⟩], []⟩]⟩ ∧
        foldUpWith count [] rule = ([.not, .and, .not, .or], 4) ∧
          exists placed call,
            ([0], call) ∈ placed ∧ Placed count rule placed [0] call ∧ call.node = inner := by
  refine ⟨_, _, _, rfl, rfl, rfl, ?_⟩
  rcases fold_finishes_every_node_once
      (fun (order : List Connective) (node : Rule) (counts : List Nat) =>
        (order ++ [node.connective], counts.sum + 1)) []
      ⟨.or, [⟨.user, "a", "U:a", rfl⟩],
        [⟨.and, [⟨.user, "b", "U:b", rfl⟩], [⟨.not, [⟨.user, "c", "U:c", rfl⟩], []⟩]⟩,
          ⟨.not, [⟨.user, "d", "U:d", rfl⟩], []⟩]⟩ with
    ⟨hfold, -, -, placed, -, -, -, hcomplete, hplaced, -⟩
  refine ⟨hfold.trans rfl, placed, ?_⟩
  rcases List.mem_map.mp ((hcomplete [0]).mpr rfl) with ⟨⟨place, call⟩, hcall, rfl⟩
  have hright := hplaced _ _ hcall
  exact ⟨call, hcall, hright, (Option.some.inj hright.node_eq).symm⟩

end Rule
end AccessRules
