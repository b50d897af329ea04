import AccessRules.Json.Reader
import AccessRules.Rule.Labels

/-!
# Name books as JSON documents

A name book is one object whose members are strings: tokens with their labels.
-/

namespace AccessRules
namespace NameBook

open Json (Symbol)

def enterMembers (book : NameBook) : List Symbol -> Option NameBook
  | [.text token, .colon, .text label, .closing .brace] => some (book.enter token label)
  | .text token :: .colon :: .text label :: .comma :: rest =>
      (book.enter token label).enterMembers rest
  | _ => none

def ofSymbols? : List Symbol -> Option NameBook
  | [.opening .brace, .closing .brace] => some empty
  | .opening .brace :: rest => empty.enterMembers rest
  | _ => none

def ofJson? (text : String) : Option NameBook :=
  (Json.symbols? text).bind ofSymbols?

end NameBook
end AccessRules
