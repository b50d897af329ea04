import Mathlib.Data.List.DropRight
import AccessRules.Text.Blank

/-!
# Trimmed texts

A text is its trimmed text between two runs of blanks, and the trimmed text has no blank at
either end. Only one text stands in that relation to a given one.
-/

namespace AccessRules
namespace Text

def AllBlank (text : String) : Prop :=
  forall c, c ∈ text.toList -> isBlank c = true

structure TrimsTo (text core : String) : Prop where
  between : exists front back, text = front ++ core ++ back ∧ AllBlank front ∧ AllBlank back
  head : forall c, core.toList.head? = some c -> isBlank c = false
  last : forall c, core.toList.getLast? = some c -> isBlank c = false

/-!
## Runs of characters
-/

section Runs

variable {core back : List Char}

/-- Where the core is empty, the blanks behind it are at the start as well. -/
theorem dropWhile_isBlank_append (hhead : forall c, core.head? = some c -> isBlank c = false)
    (hback : forall c, c ∈ back -> isBlank c = true) :
    (core ++ back).dropWhile isBlank = if core = [] then [] else core ++ back := by
  cases core with
  | nil =>
      exact List.dropWhile_eq_nil_iff.mpr hback
  | cons first rest =>
      have hfirst : isBlank first = false := hhead first rfl
      rw [if_neg (List.cons_ne_nil _ _), List.cons_append, List.dropWhile_cons, hfirst]
      rfl

theorem rdropWhile_isBlank_append
    (hlast : forall c, core.getLast? = some c -> isBlank c = false)
    (hback : forall c, c ∈ back -> isBlank c = true) :
    (core ++ back).rdropWhile isBlank = core := by
  have hreversed : forall c, c ∈ back.reverse -> isBlank c = true :=
    fun c hc => hback c (List.mem_reverse.mp hc)
  rw [List.rdropWhile, List.reverse_append, List.dropWhile_append_of_pos hreversed,
    <- List.rdropWhile]
  apply List.rdropWhile_eq_self_iff.mpr
  intro hne
  rw [hlast _ (List.getLast?_eq_some_getLast hne)]
  exact Bool.false_ne_true

end Runs

theorem isBlank_of_head?_dropWhile {chars : List Char} {c : Char}
    (h : (chars.dropWhile isBlank).head? = some c) : isBlank c = false := by
  have hnot := List.head?_dropWhile_not isBlank chars
  rw [h] at hnot
  exact hnot

theorem isBlank_of_getLast?_rdropWhile {chars : List Char} {c : Char}
    (h : (chars.rdropWhile isBlank).getLast? = some c) : isBlank c = false := by
  rw [List.rdropWhile, List.getLast?_reverse] at h
  exact isBlank_of_head?_dropWhile h

/-- What is cut off at the end leaves the first character alone, unless it takes all. -/
theorem head?_of_head?_rdropWhile {chars : List Char} {c : Char}
    (h : (chars.rdropWhile isBlank).head? = some c) : chars.head? = some c := by
  rw [<- List.singleton_prefix_iff_head?_eq_some] at h ⊢
  exact h.trans (List.rdropWhile_prefix isBlank chars)

/-!
## Trimming
-/

theorem trim_eq_of_trimsTo {text core : String} (h : TrimsTo text core) : trim text = core := by
  rcases h with ⟨⟨front, back, rfl, hfront, hback⟩, hhead, hlast⟩
  have hchars : ((front ++ core ++ back).toList.dropWhile isBlank).rdropWhile isBlank =
      core.toList := by
    rw [String.toList_append, String.toList_append, List.append_assoc,
      List.dropWhile_append_of_pos hfront, dropWhile_isBlank_append hhead hback]
    split
    · next hempty =>
        rw [hempty, List.rdropWhile_nil]
    · exact rdropWhile_isBlank_append hlast hback
  rw [trim, <- List.rdropWhile, hchars, String.ofList_toList]

theorem trimsTo_trim (text : String) : TrimsTo text (trim text) := by
  let chars := text.toList.dropWhile isBlank
  have htrim : (trim text).toList = chars.rdropWhile isBlank := String.toList_ofList
  constructor
  · refine ⟨String.ofList (text.toList.takeWhile isBlank),
      String.ofList (chars.rtakeWhile isBlank), ?_, ?_, ?_⟩
    · apply String.toList_injective
      rw [String.toList_append, String.toList_append, htrim, String.toList_ofList,
        String.toList_ofList, List.append_assoc, List.rdropWhile_append_rtakeWhile,
        List.takeWhile_append_dropWhile]
    · intro c hc
      rw [String.toList_ofList] at hc
      exact List.mem_takeWhile_imp hc
    · intro c hc
      rw [String.toList_ofList] at hc
      exact List.mem_rtakeWhile_imp hc
  · intro c hc
    rw [htrim] at hc
    exact isBlank_of_head?_dropWhile (head?_of_head?_rdropWhile hc)
  · intro c hc
    rw [htrim] at hc
    exact isBlank_of_getLast?_rdropWhile hc

theorem trim_eq_iff {text core : String} : trim text = core ↔ TrimsTo text core := by
  constructor
  · rintro rfl
    exact trimsTo_trim text
  · exact trim_eq_of_trimsTo

end Text
end AccessRules
