import AccessRules.Command.Call
import AccessRules.Rule.Labels

/-!
# Entries of an outline

An outline has one entry for every node of a rule and one for every recipient.
-/

namespace AccessRules
namespace Command

open Expression (Token)

structure Entry where
  level : Nat
  token : Token
deriving DecidableEq

namespace Entry

def line (entry : Entry) : String :=
  Call.indentation entry.level ++ entry.token.word

def note (entry : Entry) : String :=
  match entry.token with
  | .connective _ => ""
  | .recipient lone => if lone.isLabelled then " (" ++ lone.label ++ ")" else ""

/-- What a name book adds to the line: the label that the token has in the book, unless the
token is its own label. -/
def addition (book : NameBook) (entry : Entry) : String :=
  match entry.token with
  | .connective _ => ""
  | .recipient lone =>
      match book.label? lone.token with
      | some label => if label = lone.token then "" else " (" ++ label ++ ")"
      | none => ""

end Entry

def rowEntries (row : Rule.Row) : List Entry :=
  ⟨row.depth, .connective row.connective⟩ ::
    row.recipients.map fun lone => ⟨row.depth + 1, .recipient lone⟩

def entries (rule : Rule) : List Entry :=
  rule.rows.flatMap rowEntries

def outlineWith (behind : Entry -> String) (rule : Rule) : String :=
  String.join ((entries rule).map fun entry => entry.line ++ behind entry ++ "\n")

end Command
end AccessRules
