import AccessRules.Text.Decimal

/-!
# Numerals in a word

A word of 64 bits wraps, so every product and every sum is checked.
-/

namespace AccessRules
namespace Text

def digitOf (c : Char) : Nat :=
  c.toNat - '0'.toNat

def largestWord : UInt64 := 0xFFFFFFFFFFFFFFFF

def tenfold? (word : UInt64) : Option UInt64 :=
  if word ≤ largestWord / 10 then some (word * 10) else none

/-- A sum that has wrapped is less than what was added to. -/
def sum? (word other : UInt64) : Option UInt64 :=
  if word ≤ word + other then some (word + other) else none

def takeDigit? (word : UInt64) (c : Char) : Option UInt64 :=
  if isDigit c then (tenfold? word).bind fun tenfold => sum? tenfold (digitOf c).toUInt64
  else none

def wordNumeral? (text : String) : Option UInt64 :=
  let digits := dropPlus text.toList
  if digits.isEmpty then none else digits.foldlM takeDigit? 0

end Text
end AccessRules
