import AccessRules.Command.Run

/-!
# Whole runs

A whole run starts from a command line and an environment, and ends with an exit status.
-/

namespace AccessRules
namespace Command

structure Report where
  status : Nat
  output : String
  log : List String
  failure : String
deriving DecidableEq, Repr

def helpText : String :=
  "Check, canonicalise and inspect postfix ACL expressions.\n\n" ++
  "Usage: acl-expr [OPTIONS] <COMMAND>\n\n" ++
  "Commands:\n" ++
  "  check      Validate an expression, listing every invalid token\n" ++
  "  canonical  Print the canonical normalised form of an expression\n" ++
  "  tree       Print the normalised expression tree\n" ++
  "  help       Print this message\n\n" ++
  "Options:\n" ++
  "      --log-level <LOG_LEVEL>  Log level (trace, debug, info, warn, error)\n" ++
  "      --max-depth <MAX_DEPTH>  Deepest expression nesting accepted\n" ++
  "  -h, --help                   Print help\n" ++
  "  -V, --version                Print version\n"

def versionText : String := "acl-expr 0.1.0\n"

def UsageFault.message : UsageFault -> String
  | helpWanted => helpText
  | versionWanted => versionText
  | noArguments => helpText
  | missingAction => "error: a command is required\n"
  | unknownAction => "error: unknown command\n"
  | unknownOption => "error: unexpected argument\n"
  | missingValue => "error: a value is required\n"
  | surplusValue => "error: unexpected value\n"
  | repeatedOption => "error: an option was given more than once\n"
  | badSetting fault => "error: " ++ fault.message ++ "\n"

namespace Report

def ofUsage (fault : UsageFault) : Report :=
  match fault with
  | .helpWanted => ⟨0, fault.message, [], ""⟩
  | .versionWanted => ⟨0, fault.message, [], ""⟩
  | fault => ⟨2, "", [], fault.message⟩

def statusOf : Except Failure Outcome -> Nat
  | .ok .success => 0
  | _ => 1

def ofExecution (settings : Settings) (execution : Execution) : Report where
  status := statusOf execution.ending
  output := written execution.writes
  log := ((settings.record :: execution.log).filter
    (LogRecord.passes settings.threshold)).map LogRecord.line
  failure :=
    match execution.ending with
    | .ok _ => ""
    | .error failure => failure.report

def ofRun (arguments : List String) (valueOf : String -> Option String)
    (around : Surroundings) : Report :=
  match readArguments arguments with
  | .error fault => ofUsage fault
  | .ok invocation =>
      match settingsFor invocation valueOf with
      | .error fault => ⟨1, "", [], Failure.reportChain [fault.message]⟩
      | .ok settings => ofExecution settings (run invocation settings around)

end Report

end Command
end AccessRules
