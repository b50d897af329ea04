import AccessRules.Text.Blank

/-!
# Decimal numerals

Leading zeros are allowed and one plus sign may stand in front.
-/

namespace AccessRules
namespace Text

def isDigit (c : Char) : Bool :=
  '0' ≤ c && c ≤ '9'

def digitsValue (digits : List Char) : Nat :=
  digits.foldl (fun value c => value * 10 + (c.toNat - '0'.toNat)) 0

def digits? (chars : List Char) : Option Nat :=
  if !chars.isEmpty && chars.all isDigit then some (digitsValue chars) else none

def dropPlus : List Char -> List Char
  | '+' :: rest => rest
  | chars => chars

def numeral? (bound : Nat) (text : String) : Option Nat :=
  (digits? (dropPlus text.toList)).filter (· ≤ bound)

end Text
end AccessRules
