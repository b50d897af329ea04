import Mathlib.Data.List.Forall2
import AccessRules.Rule.Places
import AccessRules.Rule.Walk
import AccessRules.Proofs.Rule.Labels

/-!
# What a walk shows of a rule

A walk comes to every place of a rule once, in the order of the places, and knows how deep each
of them is. It shows as much of two rules as a comparison sees: they are the same node for node
exactly when the walks show the same rows, labels apart.
-/

namespace AccessRules
namespace Rule

/-!
## The walk along the tree

The loop goes through a rule and all below it before it goes on with what lies under it on the
stack.
-/

mutual

def walkTree (depth : Nat) : Rule -> List (Nat × Rule)
  | ⟨connective, recipients, parts⟩ =>
      (depth, ⟨connective, recipients, parts⟩) :: walkTrees (depth + 1) parts

def walkTrees (depth : Nat) : List Rule -> List (Nat × Rule)
  | [] => []
  | rule :: rest => walkTree depth rule ++ walkTrees depth rest

end

mutual

theorem walkFrom_rule (depth : Nat) (later : List (Nat × Rule)) :
    (rule : Rule) ->
      walkFrom ((depth, rule) :: later) = walkTree depth rule ++ walkFrom later
  | ⟨connective, recipients, parts⟩ => by
      rw [walkFrom, walkFrom_forest (depth + 1) later parts, walkTree, List.cons_append]

theorem walkFrom_forest (depth : Nat) (later : List (Nat × Rule)) :
    (forest : List Rule) ->
      walkFrom (atDepth depth forest ++ later) = walkTrees depth forest ++ walkFrom later
  | [] => rfl
  | rule :: rest => by
      have hrule := walkFrom_rule depth (atDepth depth rest ++ later) rule
      rw [walkFrom_forest depth later rest, <- List.append_assoc] at hrule
      exact hrule

end

theorem walk_eq_walkTree (rule : Rule) : rule.walk = walkTree 0 rule := by
  rw [walk, walkFrom_rule, walkFrom, List.append_nil]

mutual

theorem rowsFrom_eq_map_walkTree (depth : Nat) :
    (rule : Rule) -> rowsFrom depth rule = (walkTree depth rule).map rowOf
  | ⟨connective, recipients, parts⟩ => by
      rw [rowsFrom, walkTree, List.map_cons, rowsOfAll_eq_map_walkTrees (depth + 1) parts]
      rfl

theorem rowsOfAll_eq_map_walkTrees (depth : Nat) :
    (rules : List Rule) -> rowsOfAll depth rules = (walkTrees depth rules).map rowOf
  | [] => rfl
  | rule :: rest => by
      rw [rowsOfAll, walkTrees, List.map_append, rowsFrom_eq_map_walkTree depth rule,
        rowsOfAll_eq_map_walkTrees depth rest]

end

theorem rows_eq_map_walk (rule : Rule) : rule.rows = rule.walk.map rowOf := by
  rw [rows_eq_rowsFrom, walk_eq_walkTree, rowsFrom_eq_map_walkTree]

/-!
## The places of a rule

A place comes before the places below it, and what is below one part comes before what is below
the next.
-/

mutual

/-- The places of a rule in their order. -/
def places : Rule -> List Place
  | ⟨_, _, parts⟩ => [] :: placesIn 0 parts

/-- The places in some parts, the first of which has the given number. -/
def placesIn (number : Nat) : List Rule -> List Place
  | [] => []
  | part :: rest => (places part).map (number :: ·) ++ placesIn (number + 1) rest

end

theorem mem_placesIn {number : Nat} {parts : List Rule} {place : Place} :
    place ∈ placesIn number parts ↔
      exists index part below, parts[index]? = some part ∧ below ∈ part.places ∧
        place = (number + index) :: below := by
  induction parts generalizing number with
  | nil =>
      simp [placesIn]
  | cons part rest ih =>
      rw [placesIn, List.mem_append, List.mem_map, ih]
      constructor
      · rintro (⟨below, hbelow, rfl⟩ | ⟨index, other, below, hother, hbelow, rfl⟩)
        · exact ⟨0, part, below, rfl, hbelow, rfl⟩
        · exact ⟨index + 1, other, below, hother, hbelow,
            by rw [Nat.add_right_comm, Nat.add_assoc]⟩
      · rintro ⟨index, other, below, hother, hbelow, rfl⟩
        cases index with
        | zero =>
            cases hother
            exact .inl ⟨below, hbelow, rfl⟩
        | succ index =>
            exact .inr ⟨index, other, below, hother, hbelow,
              by rw [Nat.add_right_comm, Nat.add_assoc]⟩

theorem mem_places {rule : Rule} {place : Place} :
    place ∈ rule.places ↔ (nodeAt? place rule).isSome = true := by
  induction place generalizing rule with
  | nil =>
      cases rule
      simp [places, nodeAt?]
  | cons number below ih =>
      rcases rule with ⟨connective, recipients, parts⟩
      rw [places, nodeAt?, List.mem_cons, mem_placesIn]
      constructor
      · rintro (hroot | ⟨index, part, rest, hpart, hrest, hplace⟩)
        · cases hroot
        · rw [Nat.zero_add] at hplace
          cases hplace
          rw [hpart]
          exact ih.mp hrest
      · intro hnode
        cases hpart : parts[number]? with
        | none =>
            rw [hpart] at hnode
            cases hnode
        | some part =>
            rw [hpart] at hnode
            exact .inr ⟨number, part, below, hpart, ih.mpr hnode, by rw [Nat.zero_add]⟩

mutual

theorem pairwise_places : (rule : Rule) -> rule.places.Pairwise (· < ·)
  | ⟨connective, recipients, parts⟩ => by
      rw [places, List.pairwise_cons]
      refine ⟨?_, pairwise_placesIn 0 parts⟩
      intro place hplace
      obtain ⟨index, part, below, -, -, rfl⟩ := mem_placesIn.mp hplace
      exact List.nil_lt_cons _ _

theorem pairwise_placesIn (number : Nat) :
    (parts : List Rule) -> (placesIn number parts).Pairwise (· < ·)
  | [] => .nil
  | part :: rest => by
      rw [placesIn, List.pairwise_append, List.pairwise_map]
      refine ⟨?_, pairwise_placesIn (number + 1) rest, ?_⟩
      · exact (pairwise_places part).imp fun hbefore =>
          List.cons_lt_cons_iff.mpr (.inr ⟨rfl, hbefore⟩)
      · intro place hplace other hother
        obtain ⟨below, -, rfl⟩ := List.mem_map.mp hplace
        obtain ⟨index, sibling, rest, -, -, rfl⟩ := mem_placesIn.mp hother
        exact List.cons_lt_cons_iff.mpr (.inl (by omega))

end

/-!
## The walk comes to the places
-/

/-- A node that a walk has met stands at a place of the rule, and the walk knows how deep it is. -/
def MetAt (rule : Rule) (above : Nat) (place : Place) (met : Nat × Rule) : Prop :=
  nodeAt? place rule = some met.2 ∧ met.1 = above + place.length

mutual

theorem forall₂_walkTree (depth : Nat) :
    (rule : Rule) -> List.Forall₂ (MetAt rule depth) rule.places (walkTree depth rule)
  | ⟨connective, recipients, parts⟩ => by
      rw [places, walkTree]
      exact .cons ⟨rfl, rfl⟩
        (forall₂_walkTrees depth ⟨connective, recipients, parts⟩ 0 parts rfl)

theorem forall₂_walkTrees (depth : Nat) (rule : Rule) (number : Nat) :
    (parts : List Rule) -> rule.parts.drop number = parts ->
      List.Forall₂ (MetAt rule depth) (placesIn number parts) (walkTrees (depth + 1) parts)
  | [], _ => .nil
  | part :: rest, hparts => by
      have hpart : rule.parts[number]? = some part := by
        rw [<- List.head?_drop, hparts]
        rfl
      have hrest : rule.parts.drop (number + 1) = rest := by
        rw [<- List.tail_drop, hparts]
        rfl
      rw [placesIn, walkTrees]
      refine List.rel_append ?_ (forall₂_walkTrees depth rule (number + 1) rest hrest)
      rw [List.forall₂_map_left_iff]
      refine (forall₂_walkTree (depth + 1) part).imp fun below met hmet => ⟨?_, ?_⟩
      · rw [nodeAt?, hpart]
        exact hmet.1
      · rw [hmet.2, List.length_cons, Nat.add_right_comm, Nat.add_assoc]

end

/-!
## Comparing with a stack
-/

mutual

theorem agreeFrom_cons (later : List (Rule × Rule)) (b : Rule) :
    (a : Rule) -> agreeFrom ((a, b) :: later) = (sameTree a b && agreeFrom later)
  | ⟨connective, recipients, parts⟩ => by
      rw [agreeFrom, sameTree_eq]
      cases hnode : sameNode ⟨connective, recipients, parts⟩ b with
      | false =>
          rfl
      | true =>
          rw [if_pos rfl, Bool.true_and,
            agreeFrom_pushPairs later b.parts parts (length_parts_of_sameNode hnode)]

theorem agreeFrom_pushPairs (later : List (Rule × Rule)) :
    (others parts : List Rule) -> parts.length = others.length ->
      agreeFrom (pushPairs parts others later) = (sameTrees parts others && agreeFrom later)
  | [], [], _ => by
      simp [pushPairs, sameTrees]
  | other :: others, part :: parts, hlength => by
      rw [pushPairs, agreeFrom_pushPairs ((part, other) :: later) others parts
        (by simpa using hlength), agreeFrom_cons later other part, sameTrees,
        Bool.and_left_comm, Bool.and_assoc]

end

@[simp] theorem agreeFrom_singleton (a b : Rule) : agreeFrom [(a, b)] = a.same b := by
  rw [agreeFrom_cons, agreeFrom, Bool.and_true, same_eq_sameTree]

/-!
## What a comparison sees
-/

/-- A row as a comparison sees it: the labels of the recipients take no part. -/
def Row.seen (row : Row) : Nat × Connective × List (Kind × String) :=
  (row.depth, row.connective, row.recipients.map Recipient.identity)

theorem Row.seen_eq_iff {row other : Row} :
    row.seen = other.seen ↔
      row.named (fun recipient => some recipient.token) =
        other.named (fun recipient => some recipient.token) := by
  simp only [seen, named, Prod.mk.injEq, mk.injEq, map_identity_eq_iff]
  exact Iff.rfl

theorem map_seen_eq_iff {rows others : List Row} :
    rows.map Row.seen = others.map Row.seen ↔
      rows.map (Row.named fun recipient => some recipient.token) =
        others.map (Row.named fun recipient => some recipient.token) := by
  induction rows generalizing others with
  | nil =>
      cases others <;> simp
  | cons row rest ih =>
      cases others with
      | nil =>
          simp
      | cons other others =>
          simp only [List.map_cons, List.cons.injEq, Row.seen_eq_iff, ih]

theorem same_iff_map_seen (a b : Rule) :
    a.same b = true ↔ a.rows.map Row.seen = b.rows.map Row.seen := by
  rw [map_seen_eq_iff, <- rows_namedTree, <- rows_namedTree, same_iff_unlabelled]
  exact ⟨congrArg rows, rows_injective⟩

/-- Two rules are the same exactly when their rows show the same depths, connectives and
recipients. The comparison may keep its pairs on a stack, and the rows are those of the nodes
that a walk meets. A walk meets what stands at each place of the rule once, a node before the
nodes below it and one part before the next, and knows how deep the place is. A copy has the
same rows with the same labels. -/
theorem sameness_is_what_a_walk_shows (a b : Rule) :
    (a.same b = true ↔ a.rows.map Row.seen = b.rows.map Row.seen) ∧
      a.same b = agreeFrom [(a, b)] ∧
      a.rows = a.walk.map rowOf ∧
      (exists places : List Place,
        places.Pairwise (· < ·) ∧
          (forall place, place ∈ places ↔ (nodeAt? place a).isSome = true) ∧
          List.Forall₂
            (fun place met => nodeAt? place a = some met.2 ∧ met.1 = place.length)
            places a.walk) ∧
      a.copy.rows = a.rows := by
  have hmet : List.Forall₂ (MetAt a 0) a.places a.walk := by
    rw [walk_eq_walkTree]
    exact forall₂_walkTree 0 a
  refine ⟨same_iff_map_seen a b, (agreeFrom_singleton a b).symm, rows_eq_map_walk a,
    ⟨a.places, pairwise_places a, fun place => mem_places, ?_⟩, congrArg rows (copy_eq a)⟩
  refine hmet.imp fun place met h => ⟨h.1, ?_⟩
  rw [h.2, Nat.zero_add]

end Rule
end AccessRules
