import AccessRules.Command.Arguments
import AccessRules.Command.Output
import AccessRules.Expression.Trace
import AccessRules.Json.NameBook

/-!
# Running an action

A run answers with its log, its writes and how it ends. A fault of the expression is the answer
of a check, and a failure of the other actions.
-/

namespace AccessRules
namespace Command

structure Surroundings where
  input : ByteArray
  file : String -> Except FileFault ByteArray

inductive Outcome where
  | success
  | rejected
deriving DecidableEq, Repr

structure Execution where
  log : List LogRecord := []
  writes : List Write := []
  ending : Except Failure Outcome

namespace Execution

def failed (log : List LogRecord) (failure : Failure) : Execution :=
  ⟨log, [], .error failure⟩

def onto (execution : Execution) (stream : Stream) : ByteArray × Except Failure Outcome :=
  let delivery := stream.put execution.writes
  match delivery.failure with
  | some failure => (delivery.taken, .error failure)
  | none => (delivery.taken, execution.ending)

end Execution

def expressionText (words : List String) (input : ByteArray) : Except Failure String :=
  if words.isEmpty then
    match Text.decode? input with
    | some text => .ok text
    | none => .error .inputNotText
  else .ok (" ".intercalate words)

def runCheck (limit : Nat) (text : String) : Execution :=
  let result := Expression.parse limit text
  let log := Expression.records text result
  match result with
  | .ok _ => ⟨log, approval, .ok .success⟩
  | .error fault =>
      let record : LogRecord :=
        ⟨.info, "acl_expr_cli::commands", "expression rejected", [("error", fault.message)]⟩
      ⟨log ++ [record], rejection fault, .ok .rejected⟩

/-- Go on with the normal form of the expression, if it is a rule. -/
def withRule (limit : Nat) (text : String) (next : List LogRecord -> Rule -> Execution) :
    Execution :=
  let result := Expression.parse limit text
  let log := Expression.records text result
  match result with
  | .ok rule => next log rule.normalForm
  | .error fault => .failed log (.notParsed text fault)

def runCanonical (limit : Nat) (text : String) : Execution :=
  withRule limit text fun log rule => ⟨log, canonicalLine rule, .ok .success⟩

def readNames (file : String -> Except FileFault ByteArray) (path : String) :
    Except Failure NameBook :=
  match file path with
  | .error fault => .error (.namesUnread path fault)
  | .ok bytes =>
      match Text.decode? bytes with
      | none => .error (.namesUnread path .notText)
      | some text =>
          match NameBook.ofJson? text with
          | none => .error (.namesMalformed path)
          | some book => .ok book

def namesRecord (path : String) (book : NameBook) : LogRecord :=
  ⟨.debug, "acl_expr_cli::names", "loaded display names",
    [("path", path), ("count", toString book.size)]⟩

def treeWrites (json : Bool) (rule : Rule) : List Write :=
  if json then documentWrites rule else outline rule

def runTree (limit : Nat) (text : String) (names : Option String) (json : Bool)
    (file : String -> Except FileFault ByteArray) : Execution :=
  withRule limit text fun log rule =>
    match names with
    | none => ⟨log, treeWrites json rule, .ok .success⟩
    | some path =>
        match readNames file path with
        | .error failure => .failed log failure
        | .ok book =>
            ⟨log ++ [namesRecord path book], treeWrites json (rule.named book.naming),
              .ok .success⟩

def run (invocation : Invocation) (settings : Settings) (around : Surroundings) :
    Execution :=
  match expressionText invocation.words around.input with
  | .error failure => .failed [] failure
  | .ok text =>
      match invocation.action with
      | .check => runCheck settings.limit text
      | .canonical => runCanonical settings.limit text
      | .tree => runTree settings.limit text invocation.names invocation.json around.file

def settingsFor (invocation : Invocation) (valueOf : String -> Option String) :
    Except SettingFault Settings :=
  (Settings.ofEnvironment valueOf).map fun settings =>
    settings.override invocation.severity invocation.limit

end Command
end AccessRules
