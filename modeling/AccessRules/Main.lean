import AccessRules.Command.Report

/-!
# The program

The outer layer: it collects what a run needs, and prints what the run reports.
-/

namespace AccessRules
namespace Command

/-- Read a file. The code 21 stands for a path that leads to a folder, and the
code 22 for a path with a NUL character in it. -/
def readFile (path : String) : IO (Except FileFault ByteArray) := do
  try
    return .ok (← IO.FS.readBinFile path)
  catch fault =>
    match fault with
    | .noFileOrDirectory .. => return .error .missing
    | .inappropriateType _ 21 _ => return .error .isFolder
    | .inappropriateType .. => return .error .notFolder
    | .invalidArgument _ 22 _ => return .error .nulInPath
    | .invalidArgument .. => return .error .nameTooLong
    | other => return .error (.other (toString other))

def environment (name : String) : IO (Option (String × String)) := do
  return (← IO.getEnv name).map fun value => (name, value)

end Command
end AccessRules

open AccessRules AccessRules.Command

def main (arguments : List String) : IO UInt32 := do
  let values ← [Settings.severityVariable, Settings.limitVariable].filterMapM environment
  let request := (readArguments arguments).toOption
  let input ←
    if request.any fun invocation => invocation.words.isEmpty then
      (← IO.getStdin).readBinToEnd
    else
      pure ByteArray.empty
  let names ← match request.bind Invocation.names with
    | some path => readFile path
    | none => pure (.error .missing)
  let report := Report.ofRun arguments (fun name => values.lookup name)
    ⟨input, fun _ => names⟩
  (← IO.getStdout).putStr report.output
  for line in report.log do
    IO.eprintln line
  unless report.failure.isEmpty do
    IO.eprintln report.failure
  return report.status.toUInt32
