import AccessRules.Expression.Fault
import AccessRules.Text.Blank

/-!
# Failures of a run

A failure is told as a chain of texts: what could not be done, and what stood in the way.
-/

namespace AccessRules
namespace Command

inductive FileFault where
  | missing
  | isFolder
  | notFolder
  | notText
  | nameTooLong
  | nulInPath
  | other (text : String)
deriving DecidableEq, Repr

def FileFault.message : FileFault -> String
  | missing => "No such file or directory (os error 2)"
  | isFolder => "Is a directory (os error 21)"
  | notFolder => "Not a directory (os error 20)"
  | notText => "stream did not contain valid UTF-8"
  | nameTooLong => "File name too long (os error 36)"
  | nulInPath => "file name contained an unexpected NUL byte"
  | other text => text

inductive Failure where
  | inputNotText
  | notParsed (text : String) (fault : Expression.Fault)
  | namesUnread (path : String) (fault : FileFault)
  | namesMalformed (path : String)
  | unwritten (task refusal : String)
deriving DecidableEq, Repr

namespace Failure

def chain : Failure -> List String
  | inputNotText =>
      ["failed to read expression from stdin", FileFault.notText.message]
  | notParsed text fault =>
      ["failed to parse ACL expression '" ++ Text.trim text ++ "'", fault.message]
  | namesUnread path fault =>
      ["failed to read names file " ++ path ++ ": " ++ fault.message, fault.message]
  | namesMalformed path =>
      ["names file " ++ path ++ " is not a JSON object of token names"]
  | unwritten task refusal => [task, refusal]

def reportChain : List String -> String
  | [] => ""
  | [text] => "Error: " ++ text
  | text :: cause :: _ => "Error: " ++ text ++ "\n\nCaused by:\n    " ++ cause

def report (failure : Failure) : String :=
  reportChain failure.chain

end Failure

end Command
end AccessRules
