import AccessRules.Json.Document

/-!
# Reading JSON symbols

The reader takes one character at a time and refuses everything but brackets, separators and
strings. Two escapes in a row can name one character by its surrogates.
-/

namespace AccessRules
namespace Json

/-- Where a reading stands. The characters of a string under way are kept with
the newest first. -/
inductive Place where
  | between
  | inside (chars : List Char)
  | escaped (chars : List Char)
  | digits (chars : List Char) (leading : Option Nat) (count value : Nat)
  | surrogate (chars : List Char) (leading : Nat)
  | surrogateEscape (chars : List Char) (leading : Nat)
deriving DecidableEq, Repr

structure Reading where
  place : Place
  symbols : List Symbol
deriving DecidableEq, Repr

def isJsonBlank (c : Char) : Bool :=
  c = ' ' || c = '\t' || c = '\n' || c = '\x0d'

def punctuation? : Char -> Option Symbol
  | '{' => some (.opening .brace)
  | '}' => some (.closing .brace)
  | '[' => some (.opening .square)
  | ']' => some (.closing .square)
  | ',' => some .comma
  | ':' => some .colon
  | _ => none

def shortEscape? : Char -> Option Char
  | '"' => some '"'
  | '\\' => some '\\'
  | '/' => some '/'
  | 'b' => some '\x08'
  | 'f' => some '\x0c'
  | 'n' => some '\n'
  | 'r' => some '\x0d'
  | 't' => some '\t'
  | _ => none

def hexValue? (c : Char) : Option Nat :=
  if '0' ≤ c && c ≤ '9' then some (c.toNat - '0'.toNat)
  else if 'a' ≤ c && c ≤ 'f' then some (c.toNat - 'a'.toNat + 10)
  else if 'A' ≤ c && c ≤ 'F' then some (c.toNat - 'A'.toNat + 10)
  else none

def isLeadingSurrogate (unit : Nat) : Bool :=
  0xD800 ≤ unit && unit < 0xDC00

def isTrailingSurrogate (unit : Nat) : Bool :=
  0xDC00 ≤ unit && unit < 0xE000

/-- Where a reading stands after a whole UTF-16 unit. -/
def afterUnit (chars : List Char) (leading : Option Nat) (unit : Nat) : Option Place :=
  match leading with
  | none =>
      if isLeadingSurrogate unit then some (.surrogate chars unit)
      else if isTrailingSurrogate unit then none
      else some (.inside (Char.ofNat unit :: chars))
  | some high =>
      if isTrailingSurrogate unit then
        let code := 0x10000 + (high - 0xD800) * 0x400 + (unit - 0xDC00)
        some (.inside (Char.ofNat code :: chars))
      else none

def Place.next? (c : Char) : Place -> Option Place
  | .between => none
  | .inside chars =>
      if c = '\\' then some (.escaped chars)
      else if c.toNat < 0x20 then none
      else some (.inside (c :: chars))
  | .escaped chars =>
      if c = 'u' then some (.digits chars none 0 0)
      else (shortEscape? c).map fun char => .inside (char :: chars)
  | .digits chars leading count value =>
      match hexValue? c with
      | none => none
      | some digit =>
          let value := value * 16 + digit
          if count = 3 then afterUnit chars leading value
          else some (.digits chars leading (count + 1) value)
  | .surrogate chars leading =>
      if c = '\\' then some (.surrogateEscape chars leading) else none
  | .surrogateEscape chars leading =>
      if c = 'u' then some (.digits chars (some leading) 0 0) else none

def Reading.next? (reading : Reading) (c : Char) : Option Reading :=
  match reading.place with
  | .between =>
      if isJsonBlank c then some reading
      else if c = '"' then some { reading with place := .inside [] }
      else (punctuation? c).map fun symbol => ⟨.between, symbol :: reading.symbols⟩
  | place =>
      match place, c with
      | .inside chars, '"' =>
          some ⟨.between, .text (String.ofList chars.reverse) :: reading.symbols⟩
      | place, c => (place.next? c).map fun place => { reading with place }

def readSymbols (reading : Reading) : List Char -> Option (List Symbol)
  | [] =>
      match reading.place with
      | .between => some reading.symbols.reverse
      | _ => none
  | c :: rest =>
      match reading.next? c with
      | some reading => readSymbols reading rest
      | none => none

def symbols? (text : String) : Option (List Symbol) :=
  readSymbols ⟨.between, []⟩ text.toList

end Json
end AccessRules
