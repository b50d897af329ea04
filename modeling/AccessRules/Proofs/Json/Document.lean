import AccessRules.Proofs.Json.Text
import AccessRules.Proofs.Text.Lines
import AccessRules.Proofs.Text.Utf8

/-!
# Compact and indented documents

A compact document is read back as the symbols that it was written from. An indented document
is the compact one with gaps between the symbols, and a gap holds nothing but line breaks and
spaces.
-/

namespace AccessRules
namespace Json

/-!
## Reading compact documents
-/

theorem readSymbols_written (symbol : Symbol) (read : List Symbol) (rest : List Char) :
    readSymbols ⟨.between, read⟩ (symbol.written.toList ++ rest) =
      readSymbols ⟨.between, symbol :: read⟩ rest := by
  cases symbol with
  | opening bracket =>
      cases bracket <;> rfl
  | closing bracket =>
      cases bracket <;> rfl
  | comma =>
      rfl
  | colon =>
      rfl
  | text content =>
      exact readSymbols_quote content rest

@[simp] theorem compact_nil : compact [] = "" := rfl

@[simp] theorem compact_cons (symbol : Symbol) (rest : List Symbol) :
    compact (symbol :: rest) = symbol.written ++ compact rest := by
  rw [compact, List.map_cons, String.join_cons]
  rfl

theorem readSymbols_compact (symbols read : List Symbol) :
    readSymbols ⟨.between, read⟩ (compact symbols).toList = some (read.reverse ++ symbols) := by
  induction symbols generalizing read with
  | nil =>
      simp [readSymbols]
  | cons symbol rest ih =>
      simp [readSymbols_written, ih]

theorem symbols?_compact (symbols : List Symbol) : symbols? (compact symbols) = some symbols :=
  readSymbols_compact symbols []

theorem compact_injective {symbols others : List Symbol} (h : compact symbols = compact others) :
    symbols = others := by
  have hread := symbols?_compact symbols
  rw [h, symbols?_compact] at hread
  exact (Option.some.inj hread).symm

/-!
## Gaps

What stands between the symbols of an indented document depends on the number of open
brackets and on whether the symbol before opened one, but not on the content of any string.
-/

def lineStart (level : Nat) : String :=
  "\n" ++ "".pushn ' ' (2 * level)

def lineStartIf (wanted : Bool) (level : Nat) : String :=
  if wanted then lineStart level else ""

def gapBefore (level : Nat) (opened : Bool) : Symbol -> String
  | .opening _ => lineStartIf opened level
  | .closing _ => lineStartIf (!opened) (level - 1)
  | .comma => ""
  | .colon => ""
  | .text _ => lineStartIf opened level

def gapAfter (level : Nat) : Symbol -> String
  | .comma => lineStart level
  | .colon => " "
  | _ => ""

def levelAfter (level : Nat) : Symbol -> Nat
  | .opening _ => level + 1
  | .closing _ => level - 1
  | _ => level

def opens : Symbol -> Bool
  | .opening _ => true
  | _ => false

/-- The symbols with their gaps. -/
def spaced (level : Nat) (opened : Bool) : List Symbol -> String
  | [] => ""
  | symbol :: rest =>
      gapBefore level opened symbol ++ symbol.written ++ gapAfter level symbol ++
        spaced (levelAfter level symbol) (opens symbol) rest

namespace Indentation

/-- The text of all lines, the one under way included. -/
def shown (state : Indentation) : String :=
  Text.renderAll state.lines

theorem shown_eq (state : Indentation) :
    state.shown = Text.renderAll state.finished.reverse ++ state.current.rendered := by
  simp [shown, lines]

@[simp] theorem level_append (state : Indentation) (text : String) :
    (state.append text).level = state.level := rfl

@[simp] theorem shown_append (state : Indentation) (text : String) :
    (state.append text).shown = state.shown ++ text := by
  rw [shown_eq, shown_eq, String.append_assoc]
  congr 1
  exact String.append_assoc.symm

@[simp] theorem shown_breakLine (state : Indentation) :
    state.breakLine.shown = state.shown ++ lineStart state.level := by
  have hindent : Text.Line.rendered ⟨2 * state.level, ""⟩ = "".pushn ' ' (2 * state.level) :=
    String.append_empty
  rw [shown_eq, lineStart, <- String.append_assoc, <- shown_append, shown, <- hindent]
  rfl

theorem shown_startMember (state : Indentation) :
    state.startMember.shown = state.shown ++ lineStartIf state.opened state.level := by
  unfold startMember
  cases state.opened with
  | true =>
      exact state.shown_breakLine
  | false =>
      exact String.append_empty.symm

@[simp] theorem level_startMember (state : Indentation) :
    state.startMember.level = state.level := by
  unfold startMember
  split <;> rfl

/-- A symbol that starts a member stands on a line of its own, if it is the first one. -/
theorem shown_member (state : Indentation) (symbol : Symbol) :
    (state.startMember.append symbol.written).shown =
      state.shown ++ (lineStartIf state.opened state.level ++ symbol.written ++ "") := by
  rw [shown_append, shown_startMember, String.append_assoc, String.append_empty]

theorem shown_ending (state : Indentation) (symbol : Symbol) :
    ((if state.opened then state else state.breakLine).append symbol.written).shown =
      state.shown ++ (lineStartIf (!state.opened) state.level ++ symbol.written ++ "") := by
  rw [shown_append, String.append_empty, <- String.append_assoc]
  congr 1
  cases state.opened with
  | true =>
      exact String.append_empty.symm
  | false =>
      exact state.shown_breakLine

/-- One symbol adds its written form with the gaps around it. -/
theorem shown_put (state : Indentation) (symbol : Symbol) :
    (state.put symbol).shown =
      state.shown ++ (gapBefore state.level state.opened symbol ++ symbol.written ++
        gapAfter state.level symbol) := by
  cases symbol with
  | opening bracket =>
      exact state.shown_member (.opening bracket)
  | text content =>
      exact state.shown_member (.text content)
  | closing bracket =>
      exact shown_ending { state with level := state.level - 1 } (.closing bracket)
  | comma =>
      show (state.append Symbol.comma.written).breakLine.shown =
        state.shown ++ ("" ++ Symbol.comma.written ++ lineStart state.level)
      simp [String.append_assoc]
  | colon =>
      show (state.append (Symbol.colon.written ++ " ")).shown =
        state.shown ++ ("" ++ Symbol.colon.written ++ " ")
      simp

@[simp] theorem level_put (state : Indentation) (symbol : Symbol) :
    (state.put symbol).level = levelAfter state.level symbol := by
  cases symbol with
  | opening bracket =>
      rfl
  | text content =>
      exact state.level_startMember
  | closing bracket =>
      show (if state.opened then _ else _ : Indentation).level = _
      split <;> rfl
  | comma | colon =>
      rfl

@[simp] theorem opened_put (state : Indentation) (symbol : Symbol) :
    (state.put symbol).opened = opens symbol := by
  cases symbol <;> rfl

theorem shown_foldl_put (symbols : List Symbol) (state : Indentation) :
    (symbols.foldl put state).shown =
      state.shown ++ spaced state.level state.opened symbols := by
  induction symbols generalizing state with
  | nil =>
      exact String.append_empty.symm
  | cons symbol rest ih =>
      simp [ih, shown_put, spaced, String.append_assoc]

end Indentation

theorem indented_eq_spaced (symbols : List Symbol) :
    indented symbols = spaced 0 false symbols :=
  (Indentation.shown_foldl_put symbols .start).trans String.empty_append

/-!
## Documents without their blanks

Outside strings a gap vanishes, and a symbol keeps every character: blanks inside a string
stay, and an escaped quote does not end it.
-/

theorem withoutBlanks_of_blank {gap : List Char} (h : forall c, c ∈ gap -> Text.isBlank c = true)
    (rest : List Char) : withoutBlanks .outside (gap ++ rest) = withoutBlanks .outside rest := by
  induction gap with
  | nil =>
      rfl
  | cons c later ih =>
      rcases List.forall_mem_cons.mp h with ⟨hc, hlater⟩
      rw [List.cons_append, withoutBlanks, if_pos hc, ih hlater]

theorem isBlank_of_mem_lineStart {level : Nat} {c : Char} (h : c ∈ (lineStart level).toList) :
    Text.isBlank c = true := by
  rw [lineStart, String.toList_append, Text.toList_spaces] at h
  rcases List.mem_append.mp h with hbreak | hspace
  · rw [List.mem_singleton.mp hbreak]
    decide
  · rw [List.eq_of_mem_replicate hspace]
    decide

theorem isBlank_of_mem_lineStartIf {wanted : Bool} {level : Nat} {c : Char}
    (h : c ∈ (lineStartIf wanted level).toList) : Text.isBlank c = true := by
  cases wanted with
  | true =>
      exact isBlank_of_mem_lineStart h
  | false =>
      cases h

theorem isBlank_of_mem_gapBefore {level : Nat} {opened : Bool} {symbol : Symbol} {c : Char}
    (h : c ∈ (gapBefore level opened symbol).toList) : Text.isBlank c = true := by
  cases symbol with
  | opening | closing | text =>
      exact isBlank_of_mem_lineStartIf h
  | comma | colon =>
      cases h

theorem isBlank_of_mem_gapAfter {level : Nat} {symbol : Symbol} {c : Char}
    (h : c ∈ (gapAfter level symbol).toList) : Text.isBlank c = true := by
  cases symbol with
  | opening | closing | text =>
      cases h
  | comma =>
      exact isBlank_of_mem_lineStart h
  | colon =>
      have hspace : c = ' ' := by simpa [gapAfter] using h
      rw [hspace]
      decide

theorem withoutBlanks_inside {c : Char} (hquote : c ≠ '"') (hbackslash : c ≠ '\\')
    (rest : List Char) : withoutBlanks .inside (c :: rest) = c :: withoutBlanks .inside rest := by
  rw [withoutBlanks]
  simp only [if_neg hquote, if_neg hbackslash]

theorem withoutBlanks_escape (c : Char) (rest : List Char) :
    withoutBlanks .inside (escape c ++ rest) = escape c ++ withoutBlanks .inside rest := by
  rcases escape_cases c with ⟨letter, hescape, -, -⟩ | ⟨hcontrol, hescape⟩ |
    ⟨hquote, hbackslash, -, hescape⟩
  · rw [hescape]
    rfl
  · rcases exists_hexPair hcontrol with ⟨high, low, hpair, -⟩
    have hdigit : forall (digit : Fin 16) (rest : List Char),
        withoutBlanks .inside (Text.hexDigit digit :: rest) =
          Text.hexDigit digit :: withoutBlanks .inside rest :=
      fun digit => withoutBlanks_inside (hexDigit_ne_quote digit) (hexDigit_ne_backslash digit)
    rw [hescape, hpair]
    show '\\' :: 'u' :: '0' :: '0' ::
      withoutBlanks .inside (Text.hexDigit high :: Text.hexDigit low :: rest) = _
    rw [hdigit, hdigit]
    rfl
  · rw [hescape]
    exact withoutBlanks_inside hquote hbackslash rest

theorem withoutBlanks_escapes (text rest : List Char) :
    withoutBlanks .inside (text.flatMap escape ++ rest) =
      text.flatMap escape ++ withoutBlanks .inside rest := by
  induction text with
  | nil =>
      rfl
  | cons c later ih =>
      rw [List.flatMap_cons, List.append_assoc, withoutBlanks_escape, ih, List.append_assoc]

theorem withoutBlanks_written (symbol : Symbol) (rest : List Char) :
    withoutBlanks .outside (symbol.written.toList ++ rest) =
      symbol.written.toList ++ withoutBlanks .outside rest := by
  cases symbol with
  | opening bracket =>
      cases bracket <;> rfl
  | closing bracket =>
      cases bracket <;> rfl
  | comma | colon =>
      rfl
  | text content =>
      rw [Symbol.written, quote, String.toList_ofList, quoteChars, List.cons_append,
        List.cons_append, List.append_assoc, List.append_assoc]
      show '"' :: withoutBlanks .inside (content.toList.flatMap escape ++ (['"'] ++ rest)) = _
      rw [withoutBlanks_escapes]
      rfl

theorem withoutBlanks_spaced (level : Nat) (opened : Bool) (symbols : List Symbol)
    (rest : List Char) :
    withoutBlanks .outside ((spaced level opened symbols).toList ++ rest) =
      (compact symbols).toList ++ withoutBlanks .outside rest := by
  induction symbols generalizing level opened with
  | nil =>
      rfl
  | cons symbol later ih =>
      rw [spaced, compact_cons, String.append_assoc, String.append_assoc, String.toList_append,
        String.toList_append, String.toList_append, String.toList_append, List.append_assoc,
        List.append_assoc, List.append_assoc, List.append_assoc,
        withoutBlanks_of_blank (fun _ => isBlank_of_mem_gapBefore), withoutBlanks_written,
        withoutBlanks_of_blank (fun _ => isBlank_of_mem_gapAfter), ih]

end Json
end AccessRules
