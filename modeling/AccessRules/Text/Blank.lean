/-!
# Blank characters

Tokens are separated by the ASCII separators, which leave out the vertical tab. Values and trimmed
texts look at all characters with the Unicode property `White_Space`.
-/

namespace AccessRules
namespace Text

def isSeparator (c : Char) : Bool :=
  c = ' ' || c = '\t' || c = '\n' || c = '\x0c' || c = '\x0d'

def blankRanges : List (Nat × Nat) :=
  [ (0x0009, 0x000D), (0x0020, 0x0020), (0x0085, 0x0085), (0x00A0, 0x00A0),
    (0x1680, 0x1680), (0x2000, 0x200A), (0x2028, 0x2029), (0x202F, 0x202F),
    (0x205F, 0x205F), (0x3000, 0x3000) ]

def isBlank (c : Char) : Bool :=
  blankRanges.any fun range => range.1 ≤ c.toNat && c.toNat ≤ range.2

def trim (text : String) : String :=
  let fromStart := text.toList.dropWhile isBlank
  String.ofList (fromStart.reverse.dropWhile isBlank).reverse

theorem isBlank_of_isSeparator {c : Char} (h : isSeparator c = true) :
    isBlank c = true := by
  simp only [isSeparator, Bool.or_eq_true, decide_eq_true_eq] at h
  rcases h with (((rfl | rfl) | rfl) | rfl) | rfl <;> decide

end Text
end AccessRules
