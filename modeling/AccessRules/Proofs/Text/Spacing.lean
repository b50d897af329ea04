import Mathlib.Data.List.Chain
import Mathlib.Data.List.Pairwise
import AccessRules.Proofs.Text.Words

/-!
# Single spaces

Words that are put together with one space between neighbours leave no space at the ends of
the text and none next to another one.
-/

namespace AccessRules
namespace Text

/-- The text neither starts nor ends with a space, and of two neighbours in it one at least
is no space. -/
structure SinglySpaced (text : String) : Prop where
  head?_ne : text.toList.head? ≠ some ' '
  getLast?_ne : text.toList.getLast? ≠ some ' '
  apart : text.toList.IsChain fun earlier later => ¬ (earlier = ' ' ∧ later = ' ')

theorem singlySpaced_of_space_not_mem {text : String} (h : ' ' ∉ text.toList) :
    SinglySpaced text where
  head?_ne := fun hhead => h (List.mem_of_head? hhead)
  getLast?_ne := fun hlast => h (List.mem_of_getLast? hlast)
  apart := by
    apply List.Pairwise.isChain
    apply List.pairwise_of_forall_mem_list
    rintro earlier hearlier later - ⟨rfl, -⟩
    exact h hearlier

theorem singlySpaced_of_isWord {text : String} (h : IsWord text) : SinglySpaced text :=
  singlySpaced_of_space_not_mem fun hspace => absurd (h.2 ' ' hspace) (by decide)

theorem singlySpaced_append {left right : String} (hleft : SinglySpaced left)
    (hright : SinglySpaced right) (hstart : left ≠ "") (hend : right ≠ "") :
    SinglySpaced (left ++ " " ++ right) := by
  have hchars : (left ++ " " ++ right).toList = left.toList ++ ' ' :: right.toList := by
    simp
  have hstartChars : left.toList ≠ [] := mt String.toList_eq_nil_iff.mp hstart
  have hendChars : right.toList ≠ [] := mt String.toList_eq_nil_iff.mp hend
  constructor
  · rw [hchars, List.head?_append_of_ne_nil _ hstartChars]
    exact hleft.head?_ne
  · rw [hchars, List.getLast?_append_of_ne_nil _ (List.cons_ne_nil _ _),
      List.getLast?_cons_of_ne_nil hendChars]
    exact hright.getLast?_ne
  · rw [hchars, List.isChain_append, List.isChain_cons]
    refine ⟨hleft.apart, ⟨?_, hright.apart⟩, ?_⟩
    · rintro later hlater ⟨-, rfl⟩
      exact hright.head?_ne hlater
    · rintro earlier hearlier later - ⟨rfl, -⟩
      exact hleft.getLast?_ne hearlier

theorem singlySpaced_intercalate {pieces : List String}
    (hpieces : forall piece, piece ∈ pieces -> IsWord piece) :
    SinglySpaced (" ".intercalate pieces) := by
  induction pieces with
  | nil =>
      exact singlySpaced_of_space_not_mem nofun
  | cons first rest ih =>
      rw [List.forall_mem_cons] at hpieces
      cases rest with
      | nil =>
          rw [String.intercalate_singleton]
          exact singlySpaced_of_isWord hpieces.1
      | cons second rest =>
          have hrest : " ".intercalate (second :: rest) ≠ "" := by
            intro hempty
            have hwords := words_intercalate hpieces.2
            rw [hempty] at hwords
            cases hwords
          rw [String.intercalate_cons_cons]
          exact singlySpaced_append (singlySpaced_of_isWord hpieces.1) (ih hpieces.2)
            hpieces.1.1 hrest

end Text
end AccessRules
