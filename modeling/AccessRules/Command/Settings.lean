import AccessRules.Expression.Reading
import AccessRules.Log
import AccessRules.Text.Decimal

/-!
# Settings

A setting is taken from the command line, else from the environment, else from the defaults. A
value in the environment has to be valid even where the command line overrides it.
-/

namespace AccessRules
namespace Command

structure Settings where
  threshold : Severity
  limit : Nat
deriving DecidableEq, Repr

inductive SettingFault where
  | unknownSeverity (given : String)
  | badLimit (given : String)
deriving DecidableEq, Repr

def SettingFault.message : SettingFault -> String
  | unknownSeverity given =>
      "invalid configuration: unknown log level '" ++ given ++ "', expected one of: " ++
        ", ".intercalate (Severity.all.map Severity.name)
  | badLimit given =>
      "invalid configuration: invalid max depth '" ++ given ++
        "', expected a positive integer"

def severityNamed? (name : String) : Option Severity :=
  if name = "warning" then some .warn
  else Severity.all.find? fun severity => severity.name = name

def readSeverity (given : String) : Except SettingFault Severity :=
  match severityNamed? ((Text.trim given).map Char.toLower) with
  | some severity => .ok severity
  | none => .error (.unknownSeverity given)

def largestLimit : Nat := UInt64.size - 1

def readLimit (given : String) : Except SettingFault Nat :=
  match Text.numeral? largestLimit (Text.trim given) with
  | some limit => if limit = 0 then .error (.badLimit given) else .ok limit
  | none => .error (.badLimit given)

namespace Settings

def severityVariable : String := "ACL_EXPR_LOG_LEVEL"

def limitVariable : String := "ACL_EXPR_MAX_DEPTH"

def defaults : Settings := ⟨.warn, Expression.defaultLimit⟩

def ofEnvironment (valueOf : String -> Option String) : Except SettingFault Settings := do
  let threshold ←
    match valueOf severityVariable with
    | some given => readSeverity given
    | none => .ok defaults.threshold
  let limit ←
    match valueOf limitVariable with
    | some given => readLimit given
    | none => .ok defaults.limit
  return ⟨threshold, limit⟩

def override (settings : Settings) (threshold? : Option Severity) (limit? : Option Nat) :
    Settings :=
  ⟨threshold?.getD settings.threshold, limit?.getD settings.limit⟩

def record (settings : Settings) : LogRecord :=
  ⟨.debug, "acl_expr", "configuration loaded",
    [ ("config",
        "CliConfig \x7b log_level: " ++ settings.threshold.title ++ ", max_depth: " ++
          toString settings.limit ++ " \x7d") ]⟩

end Settings

end Command
end AccessRules
