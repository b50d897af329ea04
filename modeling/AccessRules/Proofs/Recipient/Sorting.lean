import AccessRules.Recipient.Hashing
import AccessRules.Proofs.Rule.Equivalence
import AccessRules.Proofs.Text.ByteOrder

/-!
# The order of recipients decides their identity

Recipients stand in one line, and two of them stand at the same place exactly when their kinds
and values agree. Sorting therefore forgets how a list was arranged and nothing else, labels
apart, and the shapes that rules are numbered by may hold sorted recipients.
-/

namespace AccessRules
namespace Recipient

/-!
## Places in the line
-/

theorem same_iff_kind_and_value {a b : Recipient} :
    a.same b = true ↔ a.kind = b.kind ∧ a.value = b.value := by
  rw [same_iff, identity, identity, Prod.mk.injEq]

theorem compare_eq (a b : Recipient) : compare a b = compareIdentity a.identity b.identity := rfl

theorem compare_eq_eq_iff_same {a b : Recipient} : compare a b = .eq ↔ a.same b = true := by
  rw [same_iff, compare_eq, compareIdentity_eq_eq_iff]

theorem compare_swap (a b : Recipient) : compare b a = (compare a b).swap := by
  rw [compare_eq, compare_eq]
  exact Std.OrientedCmp.eq_swap

theorem compare_eq_lt_iff {a b : Recipient} :
    compare a b = .lt ↔
      a.kind.rank < b.kind.rank ∨
        (a.kind = b.kind ∧ Text.bytes a.value < Text.bytes b.value) := by
  have hcompare : compare a b =
      (compare a.kind.rank b.kind.rank).then (compare a.value b.value) := rfl
  have hrank : a.kind.rank = b.kind.rank ↔ a.kind = b.kind :=
    ⟨Kind.rank_injective, congrArg Kind.rank⟩
  rw [hcompare, Ordering.then_eq_lt, Nat.compare_eq_lt, Nat.compare_eq_eq, hrank,
    Text.compare_eq_lt_iff_bytes_lt]

/-- One of the two comes first, or they are the same, and never two of these at once. -/
theorem compare_trichotomy (a b : Recipient) :
    (compare a b = .lt ∧ a.same b = false ∧ compare b a ≠ .lt) ∨
      (compare a b ≠ .lt ∧ a.same b = true ∧ compare b a ≠ .lt) ∨
        (compare a b ≠ .lt ∧ a.same b = false ∧ compare b a = .lt) := by
  have hsame : compare a b = .eq ↔ a.same b = true := compare_eq_eq_iff_same
  rw [compare_swap a b]
  cases horder : compare a b
  all_goals
    rw [horder] at hsame
    simpa using hsame

theorem compare_trans {a b c : Recipient} {order : Ordering} (h : compare a b = order)
    (hlater : compare b c = order) : compare a c = order := by
  rw [compare_eq] at h hlater ⊢
  cases order with
  | lt =>
      exact Std.TransCmp.lt_trans h hlater
  | eq =>
      exact Std.TransCmp.eq_trans h hlater
  | gt =>
      exact Std.TransCmp.gt_trans h hlater

/-!
## What a hasher takes in
-/

/-- Recipients are the same exactly when no hasher can tell them apart. -/
theorem same_iff_feed_eq {a b : Recipient} :
    a.same b = true ↔
      forall (σ : Type) (hasher : Hasher σ) (state : σ),
        a.feed hasher state = b.feed hasher state := by
  rw [same_iff_kind_and_value]
  constructor
  · rintro ⟨hkind, hvalue⟩ σ hasher state
    rw [feed, feed, hkind, hvalue]
  · intro h
    have hkept : (a.kind.rank, a.value) = (b.kind.rank, b.value) :=
      h (Nat × String)
        ⟨fun kept number => (number, kept.2), fun kept text => (kept.1, text)⟩ (0, "")
    rw [Prod.mk.injEq] at hkept
    exact ⟨Kind.rank_injective hkept.1, hkept.2⟩

/-!
## Sorted recipients

Sorting and leaving the labels away may change places. So the sorted identities decide which
recipients there are.
-/

/-- The same recipients equally often, in whatever order and with whatever labels. -/
def Rearranged (left right : List Recipient) : Prop :=
  exists reordered,
    reordered.Perm right ∧ List.Forall₂ (fun a b => a.same b = true) left reordered

theorem forall₂_same_iff {left right : List Recipient} :
    List.Forall₂ (fun a b => a.same b = true) left right ↔
      left.map identity = right.map identity := by
  simp only [same_iff]
  rw [<- List.forall₂_eq_eq_eq, List.forall₂_map_left_iff, List.forall₂_map_right_iff]

theorem rearranged_iff {left right : List Recipient} :
    Rearranged left right ↔ (left.map identity).Perm (right.map identity) := by
  have hreordered := congrFun (congrFun (List.eq_map_comp_perm identity) (left.map identity)) right
  rw [<- hreordered]
  simp only [Rearranged, forall₂_same_iff, Relation.Comp, and_comm]

theorem map_identity_mergeSort (recipients : List Recipient) :
    (recipients.mergeSort inOrder).map identity =
      (recipients.map identity).mergeSort Rule.identityInOrder :=
  List.map_mergeSort fun _ _ _ _ => rfl

theorem pairwise_mergeSort_inOrder (recipients : List Recipient) :
    (recipients.mergeSort inOrder).Pairwise fun a b => inOrder a b = true :=
  List.pairwise_mergeSort
    (fun a b c => Rule.identityInOrder_trans a.identity b.identity c.identity)
    (fun a b => Rule.identityInOrder_total a.identity b.identity) recipients

theorem forall₂_same_mergeSort_iff {left right : List Recipient} :
    List.Forall₂ (fun a b => a.same b = true) (left.mergeSort inOrder) (right.mergeSort inOrder) ↔
      Rearranged left right := by
  rw [forall₂_same_iff, map_identity_mergeSort, map_identity_mergeSort,
    Rule.sort_identities_eq_iff, rearranged_iff]

theorem recipients_shapeOf (connective : Connective) (recipients : List Recipient)
    (below : List Rule) (parts : List Nat) :
    (Rule.shapeOf ⟨connective, recipients, below⟩ parts).recipients =
      (recipients.mergeSort inOrder).map identity :=
  (map_identity_mergeSort recipients).symm

/-- Recipients stand in one line: exactly one of two comes first unless they are the same, and
what comes first is decided by the kinds and then by the bytes of the values. The same place in
the line, the same recipient and the same data for a hasher are one thing, in which labels take
no part. So sorted lists agree member by member exactly when the lists hold the same recipients
equally often, and this is what the shapes of two nodes say about their recipients. -/
theorem order_decides_identity (a b c : Recipient) (left right : List Recipient) :
    ((compare a b = .lt ∧ a.same b = false ∧ compare b a ≠ .lt) ∨
      (compare a b ≠ .lt ∧ a.same b = true ∧ compare b a ≠ .lt) ∨
        (compare a b ≠ .lt ∧ a.same b = false ∧ compare b a = .lt)) ∧
      (forall order, compare a b = order -> compare b c = order -> compare a c = order) ∧
      (compare a b = .lt ↔
        a.kind.rank < b.kind.rank ∨
          (a.kind = b.kind ∧ Text.bytes a.value < Text.bytes b.value)) ∧
      (compare a b = .eq ↔ a.kind = b.kind ∧ a.value = b.value) ∧
      (a.same b = true ↔ a.kind = b.kind ∧ a.value = b.value) ∧
      (a.same b = true ↔
        forall (σ : Type) (hasher : Hasher σ) (state : σ),
          a.feed hasher state = b.feed hasher state) ∧
      (forall label otherLabel,
        (a.withLabel label).same (b.withLabel otherLabel) = a.same b ∧
          compare (a.withLabel label) (b.withLabel otherLabel) = compare a b ∧
            forall (σ : Type) (hasher : Hasher σ) (state : σ),
              (a.withLabel label).feed hasher state = a.feed hasher state) ∧
      ((left.mergeSort inOrder).Perm left ∧
        (left.mergeSort inOrder).Pairwise fun first later => compare later first ≠ .lt) ∧
      (List.Forall₂ (fun first other => first.same other = true)
          (left.mergeSort inOrder) (right.mergeSort inOrder) ↔
        Rearranged left right) ∧
      forall connective otherConnective below otherBelow parts otherParts,
        (Rule.shapeOf ⟨connective, left, below⟩ parts).recipients =
            (Rule.shapeOf ⟨otherConnective, right, otherBelow⟩ otherParts).recipients ↔
          List.Forall₂ (fun first other => first.same other = true)
            (left.mergeSort inOrder) (right.mergeSort inOrder) := by
  refine ⟨compare_trichotomy a b, fun order => compare_trans, compare_eq_lt_iff, ?_,
    same_iff_kind_and_value, same_iff_feed_eq, fun label otherLabel => ⟨rfl, rfl, fun _ _ _ => rfl⟩,
    ⟨List.mergeSort_perm left inOrder, ?_⟩, forall₂_same_mergeSort_iff, ?_⟩
  · rw [compare_eq_eq_iff_same, same_iff_kind_and_value]
  · apply (pairwise_mergeSort_inOrder left).imp
    intro first later horder
    rw [inOrder, compare_swap later first] at horder
    intro hbefore
    rw [hbefore] at horder
    cases horder
  · intro connective otherConnective below otherBelow parts otherParts
    rw [recipients_shapeOf, recipients_shapeOf, forall₂_same_iff]

theorem order_decides_identity_labelled :
    exists ann user staff : Recipient,
      ann = ⟨.user, "a", "Ann", rfl⟩ ∧ user = ⟨.user, "b", "U:b", rfl⟩ ∧
        staff = ⟨.group, "a", "G:a", rfl⟩ ∧
        compare ann user = .lt ∧ compare user staff = .lt ∧ compare ann staff = .lt ∧
          Rearranged [staff, ann] [ann.withLabel "U:a", staff] ∧
            List.Forall₂ (fun first other => first.same other = true)
              ([staff, ann].mergeSort inOrder)
              ([ann.withLabel "U:a", staff].mergeSort inOrder) := by
  refine ⟨_, _, _, rfl, rfl, rfl, ?_⟩
  have hrearranged : Rearranged
      [⟨.group, "a", "G:a", rfl⟩, ⟨.user, "a", "Ann", rfl⟩]
      [⟨.user, "a", "U:a", rfl⟩, ⟨.group, "a", "G:a", rfl⟩] :=
    ⟨[⟨.group, "a", "G:a", rfl⟩, ⟨.user, "a", "U:a", rfl⟩], List.Perm.swap _ _ _,
      .cons rfl (.cons rfl .nil)⟩
  have hfirst : compare (⟨.user, "a", "Ann", rfl⟩ : Recipient) ⟨.user, "b", "U:b", rfl⟩ = .lt := by
    decide
  have hlater : compare (⟨.user, "b", "U:b", rfl⟩ : Recipient) ⟨.group, "a", "G:a", rfl⟩ = .lt := by
    decide
  rcases order_decides_identity _ _ _ _ _ with ⟨-, htrans, -, -, -, -, -, -, hsorted, -⟩
  exact ⟨hfirst, hlater, htrans .lt hfirst hlater, hrearranged, hsorted.mpr hrearranged⟩

end Recipient
end AccessRules
