import AccessRules.Command.Failure
import AccessRules.Expression.Reading
import AccessRules.Rule.Document
import AccessRules.Rule.Rows
import AccessRules.Text.Utf8

/-!
# Output as a sequence of writes

Each write comes with the name of its task, so that a stream that gives out can be blamed on the
write that it did not finish.
-/

namespace AccessRules
namespace Command

open Text (Line)

structure Write extends Line where
  task : String
deriving DecidableEq, Repr

def lineWrite (indent : Nat) (text task : String) : Write :=
  ⟨⟨indent, text ++ "\n"⟩, task⟩

def approval : List Write :=
  [lineWrite 0 "ok" "failed to write check result"]

def tokenFaultWrite (fault : Expression.TokenFault) : Write :=
  lineWrite 0
    (fault.word ++ ": " ++ fault.objection.message ++ " (token " ++
      toString fault.position ++ ")")
    ("failed to report invalid token " ++ fault.word)

def rejection : Expression.Fault -> List Write
  | .badTokens faults => faults.map tokenFaultWrite
  | fault => [lineWrite 0 fault.message "failed to write check failure"]

def canonicalLine (rule : Rule) : List Write :=
  [lineWrite 0 rule.spell "failed to write canonical expression"]

def recipientWrite (depth : Nat) (recipient : Recipient) : Write :=
  let label := if recipient.isLabelled then " (" ++ recipient.label ++ ")" else ""
  lineWrite (2 * (depth + 1)) (recipient.token ++ label)
    ("failed to write recipient " ++ recipient.token)

def rowWrites (row : Rule.Row) : List Write :=
  lineWrite (2 * row.depth) row.connective.keyword
      ("failed to write " ++ row.connective.keyword ++ " node") ::
    row.recipients.map (recipientWrite row.depth)

def outline (rule : Rule) : List Write :=
  rule.rows.flatMap rowWrites

/-- The lines of a document belong to one task, and its last line break to another. -/
def documentWrites (rule : Rule) : List Write :=
  rule.indentedJsonLines.map
      (fun line => ⟨line, "failed to serialize expression tree to JSON"⟩) ++
    [⟨⟨0, "\n"⟩, "failed to terminate JSON output with newline"⟩]

def written (writes : List Write) : String :=
  Text.renderAll (writes.map Write.toLine)

/-!
## Streams that give out
-/

structure Stream where
  room : Nat
  refusal : String
deriving DecidableEq, Repr

structure Delivery where
  taken : ByteArray
  failure : Option Failure

/-- Go on with the writes that are left, behind what the stream has taken. -/
def Stream.putAfter (stream : Stream) (taken : ByteArray) : List Write -> Delivery
  | [] => ⟨taken, none⟩
  | write :: later =>
      if taken.size + write.size ≤ stream.room then
        stream.putAfter (taken ++ Text.encode write.rendered) later
      else
        let fitting := (Text.encode write.rendered).extract 0 (stream.room - taken.size)
        ⟨taken ++ fitting, some (.unwritten write.task stream.refusal)⟩

def Stream.put (stream : Stream) (writes : List Write) : Delivery :=
  stream.putAfter ByteArray.empty writes

end Command
end AccessRules
