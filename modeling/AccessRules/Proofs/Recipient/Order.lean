import AccessRules.Recipient.Basic

/-!
# The order of recipients

Identities are ordered in one line: the rank of the kind comes first and the
value second, and only equal identities stand at the same place.
-/

namespace AccessRules
namespace Recipient

theorem compareIdentity_eq_lex :
    compareIdentity = compareLex (compareOn fun a => a.1.rank) (compareOn fun a => a.2) := rfl

instance : Std.TransCmp compareIdentity := by
  rw [compareIdentity_eq_lex]
  infer_instance

theorem compareIdentity_eq_eq_iff {a b : Kind × String} :
    compareIdentity a b = .eq ↔ a = b := by
  rw [compareIdentity, Ordering.then_eq_eq, Std.LawfulEqOrd.compare_eq_iff_eq,
    Std.LawfulEqOrd.compare_eq_iff_eq]
  constructor
  · rintro ⟨hrank, hvalue⟩
    exact Prod.ext (Kind.rank_injective hrank) hvalue
  · rintro rfl
    exact ⟨rfl, rfl⟩

end Recipient

/-!
## Sorted lists

Sorting by an order in one line forgets how a list was arranged and nothing else.
-/

theorem mergeSort_eq_iff_perm {le : α -> α -> Bool}
    (trans : forall a b c, le a b = true -> le b c = true -> le a c = true)
    (total : forall a b, (le a b || le b a) = true)
    (antisymm : forall a b, le a b = true -> le b a = true -> a = b) {left right : List α} :
    left.mergeSort le = right.mergeSort le ↔ left.Perm right := by
  constructor
  · intro h
    have hleft := List.mergeSort_perm left le
    rw [h] at hleft
    exact hleft.symm.trans (List.mergeSort_perm right le)
  · intro h
    have hperm : (left.mergeSort le).Perm (right.mergeSort le) :=
      ((List.mergeSort_perm left le).trans h).trans (List.mergeSort_perm right le).symm
    exact List.Perm.eq_of_pairwise (fun a b _ _ => antisymm a b)
      (List.pairwise_mergeSort trans total left) (List.pairwise_mergeSort trans total right) hperm

end AccessRules
