import AccessRules.Text.Blank

/-!
# Words of a text

The scan runs from the right. It holds the word that is being collected and the finished words
behind it.
-/

namespace AccessRules
namespace Text

def closeWord (word : List Char) (later : List String) : List String :=
  if word.isEmpty then later else String.ofList word :: later

def scanWord (c : Char) (state : List Char × List String) :
    List Char × List String :=
  if isSeparator c then ([], closeWord state.1 state.2) else (c :: state.1, state.2)

def wordsOf (chars : List Char) : List String :=
  let state := chars.foldr scanWord ([], [])
  closeWord state.1 state.2

/-- The maximal runs of characters that are no separators, from left to right. -/
def words (text : String) : List String :=
  wordsOf text.toList

theorem wordsOf_separator {c : Char} (h : isSeparator c = true) (rest : List Char) :
    wordsOf (c :: rest) = wordsOf rest := by
  simp [wordsOf, scanWord, closeWord, h]

end Text
end AccessRules
