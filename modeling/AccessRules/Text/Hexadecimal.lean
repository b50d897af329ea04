/-!
# Hexadecimal digits
-/

namespace AccessRules
namespace Text

def hexDigit (value : Nat) : Char :=
  if value < 10 then Char.ofNat ('0'.toNat + value) else Char.ofNat ('a'.toNat + (value - 10))

def hexPair (value : Nat) : List Char :=
  [hexDigit (value / 16), hexDigit (value % 16)]

end Text
end AccessRules
