import AccessRules.Text.Hexadecimal

/-!
# Log records

A threshold lets through the records at its own severity and at every more severe one.
-/

namespace AccessRules

inductive Severity where
  | trace
  | debug
  | info
  | warn
  | error
deriving DecidableEq, Repr, Inhabited

namespace Severity

def all : List Severity := [trace, debug, info, warn, error]

def rank : Severity -> Nat
  | trace => 0
  | debug => 1
  | info => 2
  | warn => 3
  | error => 4

def name : Severity -> String
  | trace => "trace"
  | debug => "debug"
  | info => "info"
  | warn => "warn"
  | error => "error"

def heading : Severity -> String
  | trace => "TRACE"
  | debug => "DEBUG"
  | info => "INFO"
  | warn => "WARN"
  | error => "ERROR"

def title : Severity -> String
  | trace => "Trace"
  | debug => "Debug"
  | info => "Info"
  | warn => "Warn"
  | error => "Error"

end Severity

structure LogRecord where
  severity : Severity
  source : String
  message : String
  fields : List (String × String) := []
deriving DecidableEq, Repr

namespace LogRecord

def passes (threshold : Severity) (record : LogRecord) : Bool :=
  threshold.rank ≤ record.severity.rank

/-!
## Lines

A line shows those characters of a message as escapes that a terminal would obey.
-/

def steersTerminal (c : Char) : Bool :=
  c = '\x07' || c = '\x08' || c = '\x0c' || c = '\x1b' || c = '\x7f'

def isHighControl (c : Char) : Bool :=
  0x80 ≤ c.toNat && c.toNat ≤ 0x9F

def shownChar (c : Char) : List Char :=
  if steersTerminal c then ['\\', 'x'] ++ Text.hexPair c.toNat
  else if isHighControl c then ['\\', 'u', '{'] ++ Text.hexPair c.toNat ++ ['}']
  else [c]

def shownMessage (message : String) : String :=
  String.ofList (message.toList.flatMap shownChar)

def shownField (field : String × String) : String :=
  " " ++ field.1 ++ "=" ++ field.2

def line (record : LogRecord) : String :=
  record.severity.heading ++ " " ++ record.source ++ ": " ++ shownMessage record.message ++
    String.join (record.fields.map shownField)

end LogRecord
end AccessRules
