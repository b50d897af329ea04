import AccessRules.Text.Hexadecimal

/-!
# Quoted text

The quote, the backslash and the control characters below the space are escaped.
-/

namespace AccessRules
namespace Json

def escape (c : Char) : List Char :=
  match c with
  | '"' => ['\\', '"']
  | '\\' => ['\\', '\\']
  | '\x08' => ['\\', 'b']
  | '\x0c' => ['\\', 'f']
  | '\n' => ['\\', 'n']
  | '\x0d' => ['\\', 'r']
  | '\t' => ['\\', 't']
  | c =>
      if c.toNat < 0x20 then ['\\', 'u', '0', '0'] ++ Text.hexPair c.toNat else [c]

def quoteChars (chars : List Char) : List Char :=
  '"' :: (chars.flatMap escape ++ ['"'])

def quote (text : String) : String :=
  String.ofList (quoteChars text.toList)

end Json
end AccessRules
