import AccessRules.Command.Run

/-!
# Calls of the output

A call has a text, and a context that tells what could not be done when the stream gives out in
that text. A JSON document is one call, and its final line break is another.
-/

namespace AccessRules
namespace Command

inductive Call where
  | approval
  | faultyWord (fault : Expression.TokenFault)
  | brokenStructure (fault : Expression.Fault)
  | canonical (rule : Rule)
  | node (depth : Nat) (connective : Connective)
  | recipient (depth : Nat) (recipient : Recipient)
  | document (rule : Rule)
  | finalBreak

namespace Call

def action : Call -> Action
  | approval => .check
  | faultyWord _ => .check
  | brokenStructure _ => .check
  | canonical _ => .canonical
  | node _ _ => .tree
  | recipient _ _ => .tree
  | document _ => .tree
  | finalBreak => .tree

def indentation (level : Nat) : String :=
  "".pushn ' ' (2 * level)

def text : Call -> String
  | approval => "ok\n"
  | faultyWord fault =>
      fault.word ++ ": " ++ fault.objection.message ++ " (token " ++
        toString fault.position ++ ")\n"
  | brokenStructure fault => fault.message ++ "\n"
  | canonical rule => rule.spell ++ "\n"
  | node depth connective => indentation depth ++ connective.keyword ++ "\n"
  | recipient depth lone =>
      indentation (depth + 1) ++ lone.token ++
        (if lone.isLabelled then " (" ++ lone.label ++ ")" else "") ++ "\n"
  | document rule => rule.indentedJson
  | finalBreak => "\n"

def context : Call -> String
  | approval => "failed to write check result"
  | faultyWord fault => "failed to report invalid token " ++ fault.word
  | brokenStructure _ => "failed to write check failure"
  | canonical _ => "failed to write canonical expression"
  | node _ connective => "failed to write " ++ connective.keyword ++ " node"
  | recipient _ lone => "failed to write recipient " ++ lone.token
  | document _ => "failed to serialize expression tree to JSON"
  | finalBreak => "failed to terminate JSON output with newline"

def textOf (calls : List Call) : String :=
  String.join (calls.map text)

/-!
## The calls of a run

A run that fails before it writes anything makes no calls.
-/

def reporting : Expression.Fault -> List Call
  | .badTokens faults => faults.map faultyWord
  | fault => [brokenStructure fault]

def outlining (rule : Rule) : List Call :=
  rule.rows.flatMap fun row =>
    node row.depth row.connective :: row.recipients.map (recipient row.depth)

def showing (json : Bool) (rule : Rule) : List Call :=
  if json then [document rule, finalBreak] else outlining rule

end Call

def callsOf (invocation : Invocation) (settings : Settings) (around : Surroundings) :
    List Call :=
  match expressionText invocation.words around.input with
  | .error _ => []
  | .ok text =>
      match invocation.action, Expression.parse settings.limit text with
      | .check, .ok _ => [.approval]
      | .check, .error fault => Call.reporting fault
      | .canonical, .ok rule => [.canonical rule.normalForm]
      | .canonical, .error _ => []
      | .tree, .error _ => []
      | .tree, .ok rule =>
          match invocation.names with
          | none => Call.showing invocation.json rule.normalForm
          | some path =>
              match readNames around.file path with
              | .error _ => []
              | .ok book => Call.showing invocation.json (rule.normalForm.named book.naming)

end Command
end AccessRules
