import AccessRules.Json.Text
import AccessRules.Text.Blank
import AccessRules.Text.Line

/-!
# JSON documents as symbols

A document is a sequence of symbols, which is written compactly or indented with one member to a
line.
-/

namespace AccessRules
namespace Json

inductive Bracket where
  | brace
  | square
deriving DecidableEq, Repr

inductive Symbol where
  | opening (bracket : Bracket)
  | closing (bracket : Bracket)
  | comma
  | colon
  | text (text : String)
deriving DecidableEq, Repr

namespace Symbol

def written : Symbol -> String
  | opening .brace => "\x7b"
  | opening .square => "["
  | closing .brace => "\x7d"
  | closing .square => "]"
  | comma => ","
  | colon => ":"
  | text content => quote content

end Symbol

def compact (symbols : List Symbol) : String :=
  String.join (symbols.map Symbol.written)

/-!
## Indented documents

A bracket that is closed at once stays on its line.
-/

/-- The finished lines, newest first, the line under way, the number of open
brackets, and whether the last symbol opened one. -/
structure Indentation where
  finished : List Text.Line
  current : Text.Line
  level : Nat
  opened : Bool

namespace Indentation

def start : Indentation := ⟨[], ⟨0, ""⟩, 0, false⟩

def append (state : Indentation) (text : String) : Indentation :=
  { state with current := ⟨state.current.indent, state.current.text ++ text⟩ }

def breakLine (state : Indentation) : Indentation :=
  let ended := state.append "\n"
  { ended with finished := ended.current :: ended.finished, current := ⟨2 * state.level, ""⟩ }

def startMember (state : Indentation) : Indentation :=
  if state.opened then state.breakLine else state

def put (state : Indentation) (symbol : Symbol) : Indentation :=
  match symbol with
  | .opening _ =>
      let after := state.startMember.append symbol.written
      { after with level := state.level + 1, opened := true }
  | .closing _ =>
      let outer := { state with level := state.level - 1 }
      let before := if state.opened then outer else outer.breakLine
      { before.append symbol.written with opened := false }
  | .comma => { (state.append symbol.written).breakLine with opened := false }
  | .colon => { state.append (symbol.written ++ " ") with opened := false }
  | .text _ => { state.startMember.append symbol.written with opened := false }

def lines (state : Indentation) : List Text.Line :=
  (state.current :: state.finished).reverse

end Indentation

def indentedLines (symbols : List Symbol) : List Text.Line :=
  (symbols.foldl Indentation.put Indentation.start).lines

def indented (symbols : List Symbol) : String :=
  Text.renderAll (indentedLines symbols)

/-!
## Blanks between symbols
-/

inductive Region where
  | outside
  | inside
  | afterBackslash
deriving DecidableEq, Repr

def withoutBlanks : Region -> List Char -> List Char
  | _, [] => []
  | .outside, c :: rest =>
      if Text.isBlank c then withoutBlanks .outside rest
      else c :: withoutBlanks (if c = '"' then .inside else .outside) rest
  | .inside, c :: rest =>
      let next : Region :=
        if c = '"' then .outside else if c = '\\' then .afterBackslash else .inside
      c :: withoutBlanks next rest
  | .afterBackslash, c :: rest => c :: withoutBlanks .inside rest

end Json
end AccessRules
