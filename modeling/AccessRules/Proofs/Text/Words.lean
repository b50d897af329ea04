import AccessRules.Text.Words

/-!
# Words between single spaces

Words that are put together with one space between neighbours are found again
when the text is cut at its separators.
-/

namespace AccessRules
namespace Text

/-- A text that is one word: it is not empty and nothing in it separates. -/
def IsWord (text : String) : Prop :=
  text ≠ "" ∧ forall c, c ∈ text.toList -> isSeparator c = false

theorem any_isSeparator_eq_false {chars : List Char} :
    chars.any isSeparator = false ↔ forall c, c ∈ chars -> isSeparator c = false := by
  simp

/-!
## The scan over one word

Characters that do not separate are collected in front of the word under way,
and a separator behind them closes it.
-/

theorem foldr_scanWord_word {word : List Char}
    (hword : forall c, c ∈ word -> isSeparator c = false)
    (state : List Char × List String) :
    word.foldr scanWord state = (word ++ state.1, state.2) := by
  induction word with
  | nil =>
      rfl
  | cons c rest ih =>
      have hc : isSeparator c = false := hword c (by simp)
      have hrest := ih fun d hd => hword d (by simp [hd])
      rw [List.foldr_cons, hrest, scanWord, hc]
      rfl

theorem wordsOf_word {word : List Char}
    (hword : forall c, c ∈ word -> isSeparator c = false) :
    wordsOf word = closeWord word [] := by
  simp [wordsOf, foldr_scanWord_word hword]

theorem closeWord_toList {text : String} (htext : IsWord text) (later : List String) :
    closeWord text.toList later = text :: later := by
  have hne : text.toList ≠ [] := by
    intro hnil
    exact htext.1 (String.toList_eq_nil_iff.mp hnil)
  simp [closeWord, hne]

theorem words_of_isWord {text : String} (htext : IsWord text) : words text = [text] := by
  rw [words, wordsOf_word htext.2, closeWord_toList htext]

/-!
## What the scan finds

The word under way has no separators, and every finished word is one.
-/

theorem isWord_of_mem_closeWord {word : List Char} {later : List String}
    (hword : forall c, c ∈ word -> isSeparator c = false)
    (hlater : forall text, text ∈ later -> IsWord text) {text : String}
    (htext : text ∈ closeWord word later) : IsWord text := by
  unfold closeWord at htext
  split at htext
  · exact hlater text htext
  · rename_i hempty
    rcases List.mem_cons.mp htext with rfl | hmem
    · constructor
      · intro hnil
        exact hempty (by simpa using hnil)
      · rw [String.toList_ofList]
        exact hword
    · exact hlater text hmem

theorem isWord_of_mem_foldr_scanWord (chars : List Char) :
    (forall c, c ∈ (chars.foldr scanWord ([], [])).1 -> isSeparator c = false) ∧
      forall text, text ∈ (chars.foldr scanWord ([], [])).2 -> IsWord text := by
  induction chars with
  | nil =>
      exact ⟨List.forall_mem_nil _, List.forall_mem_nil _⟩
  | cons c rest ih =>
      rw [List.foldr_cons, scanWord]
      cases hc : isSeparator c with
      | true =>
          rw [if_pos rfl]
          refine ⟨List.forall_mem_nil _, ?_⟩
          intro text htext
          exact isWord_of_mem_closeWord ih.1 ih.2 htext
      | false =>
          rw [if_neg (by decide)]
          exact ⟨List.forall_mem_cons.mpr ⟨hc, ih.1⟩, ih.2⟩

theorem isWord_of_mem_words {text word : String} (h : word ∈ words text) : IsWord word := by
  have hscan := isWord_of_mem_foldr_scanWord text.toList
  exact isWord_of_mem_closeWord hscan.1 hscan.2 h

/-!
## The scan over two texts

A separator closes the word before it, so what stands behind it is cut by itself.
-/

theorem closeWord_append (word : List Char) (earlier later : List String) :
    closeWord word (earlier ++ later) = closeWord word earlier ++ later := by
  unfold closeWord
  split
  · rfl
  · rfl

theorem foldr_scanWord_behind (chars : List Char) (later : List String) :
    chars.foldr scanWord ([], later) =
      ((chars.foldr scanWord ([], [])).1, (chars.foldr scanWord ([], [])).2 ++ later) := by
  induction chars with
  | nil =>
      rfl
  | cons c rest ih =>
      rw [List.foldr_cons, List.foldr_cons, ih, scanWord, scanWord]
      split
      · rw [closeWord_append]
      · rfl

theorem wordsOf_append_separator {separator : Char} (hseparator : isSeparator separator = true)
    (left right : List Char) :
    wordsOf (left ++ separator :: right) = wordsOf left ++ wordsOf right := by
  have hclosed : scanWord separator (right.foldr scanWord ([], [])) = ([], wordsOf right) := by
    rw [scanWord, if_pos hseparator]
    rfl
  rw [wordsOf, List.foldr_append, List.foldr_cons, hclosed, foldr_scanWord_behind]
  exact closeWord_append _ _ _

theorem words_append_space (left right : String) :
    words (left ++ " " ++ right) = words left ++ words right := by
  have htext : (left ++ " " ++ right).toList = left.toList ++ ' ' :: right.toList := by
    simp
  rw [words, htext, wordsOf_append_separator rfl]
  rfl

theorem words_append_lineBreak (text : String) : words (text ++ "\n") = words text := by
  have htext : (text ++ "\n").toList = text.toList ++ ['\n'] := by
    simp
  rw [words, htext, wordsOf_append_separator rfl]
  exact List.append_nil _

/-!
## The words of a spaced text
-/

theorem words_intercalate {pieces : List String}
    (hpieces : forall piece, piece ∈ pieces -> IsWord piece) :
    words (" ".intercalate pieces) = pieces := by
  induction pieces with
  | nil =>
      rfl
  | cons first rest ih =>
      have hfirst : IsWord first := hpieces first (by simp)
      have hrest := ih fun piece hpiece => hpieces piece (by simp [hpiece])
      cases rest with
      | nil =>
          rw [String.intercalate_singleton, words_of_isWord hfirst]
      | cons second rest =>
          rw [String.intercalate_cons_cons, words_append_space, words_of_isWord hfirst, hrest]
          rfl

/-!
## The words of pieces in a row

Spaces between pieces of text close the last word of each. So pieces may hold any number
of words, and empty pieces or pieces of separators add none.
-/

theorem words_intercalate_space (pieces : List String) :
    words (" ".intercalate pieces) = pieces.flatMap words := by
  induction pieces with
  | nil =>
      rfl
  | cons first rest ih =>
      rw [List.flatMap_cons]
      cases rest with
      | nil =>
          rw [String.intercalate_singleton]
          exact (List.append_nil _).symm
      | cons second rest =>
          rw [String.intercalate_cons_cons, words_append_space, ih]

/-!
## Texts laid out from words

The relation says what it is for a text to hold some words, without a scan: the words stand
in the text in their order, neighbours have a separator between them, and all else is
separators.
-/

inductive LaidOut : List Char -> List String -> Prop where
  | nil : LaidOut [] []
  | separator {c : Char} {rest : List Char} {words : List String} :
      isSeparator c = true -> LaidOut rest words -> LaidOut (c :: rest) words
  | last {word : String} : IsWord word -> LaidOut word.toList [word]
  | word {word : String} {c : Char} {rest : List Char} {words : List String} :
      IsWord word -> isSeparator c = true -> LaidOut rest words ->
        LaidOut (word.toList ++ c :: rest) (word :: words)

theorem wordsOf_of_laidOut {chars : List Char} {words : List String}
    (h : LaidOut chars words) : wordsOf chars = words := by
  induction h with
  | nil =>
      rfl
  | separator hc _ ih =>
      rw [wordsOf_separator hc, ih]
  | last hword =>
      exact words_of_isWord hword
  | @word word c rest words hword hc _ ih =>
      have hfirst : wordsOf word.toList = [word] := words_of_isWord hword
      rw [wordsOf_append_separator hc, hfirst, ih]
      rfl

theorem isWord_ofList_cons {c : Char} (hc : isSeparator c = false) {rest : List Char}
    (hrest : forall d, d ∈ rest -> isSeparator d = false) : IsWord (String.ofList (c :: rest)) := by
  constructor
  · intro hempty
    have hnil := String.toList_eq_nil_iff.mpr hempty
    rw [String.toList_ofList] at hnil
    cases hnil
  · rw [String.toList_ofList]
    exact List.forall_mem_cons.mpr ⟨hc, hrest⟩

/-- A character that does not separate starts a word or extends the first one. -/
theorem exists_laidOut_cons {c : Char} (hc : isSeparator c = false) {rest : List Char}
    {words : List String} (h : LaidOut rest words) :
    exists later, LaidOut (c :: rest) later := by
  have hsingle := isWord_ofList_cons hc (List.forall_mem_nil _)
  cases h with
  | nil =>
      have hlast := LaidOut.last hsingle
      rw [String.toList_ofList] at hlast
      exact ⟨_, hlast⟩
  | separator hseparator hrest =>
      have hfirst := LaidOut.word hsingle hseparator hrest
      rw [String.toList_ofList] at hfirst
      exact ⟨_, hfirst⟩
  | last hword =>
      have hlast := LaidOut.last (isWord_ofList_cons hc hword.2)
      rw [String.toList_ofList] at hlast
      exact ⟨_, hlast⟩
  | word hword hseparator hrest =>
      have hfirst := LaidOut.word (isWord_ofList_cons hc hword.2) hseparator hrest
      rw [String.toList_ofList] at hfirst
      exact ⟨_, hfirst⟩

theorem exists_laidOut (chars : List Char) : exists words, LaidOut chars words := by
  induction chars with
  | nil =>
      exact ⟨[], .nil⟩
  | cons c rest ih =>
      rcases ih with ⟨words, hrest⟩
      cases hc : isSeparator c with
      | true =>
          exact ⟨words, .separator hc hrest⟩
      | false =>
          exact exists_laidOut_cons hc hrest

/-- The scan finds just the words that the text is laid out from. -/
theorem laidOut_iff {text : String} {found : List String} :
    LaidOut text.toList found ↔ words text = found := by
  constructor
  · exact wordsOf_of_laidOut
  · rintro rfl
    rcases exists_laidOut text.toList with ⟨found, h⟩
    have hfound : words text = found := wordsOf_of_laidOut h
    rw [hfound]
    exact h

end Text
end AccessRules
