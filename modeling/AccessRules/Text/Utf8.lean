/-!
# Texts as bytes

Bytes that encode no text are refused as a whole.
-/

namespace AccessRules
namespace Text

def encode (text : String) : ByteArray :=
  text.toUTF8

def decode? (bytes : ByteArray) : Option String :=
  String.fromUTF8? bytes

end Text
end AccessRules
