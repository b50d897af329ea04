import AccessRules.Json.Document
import AccessRules.Rule.Layout

/-!
# Rules as JSON documents
-/

namespace AccessRules

open Json (Symbol)

def Recipient.symbols (recipient : Recipient) : List Symbol :=
  [ .opening .brace,
    .text "kind", .colon, .text recipient.kind.name, .comma,
    .text "display_name", .colon, .text recipient.label, .comma,
    .text "raw_value", .colon, .text recipient.value,
    .closing .brace ]

namespace Rule

def symbolPieces (symbols : List Symbol) : List (Piece Symbol) :=
  symbols.map .output

def separated : List (List (Piece Symbol)) -> List (Piece Symbol)
  | [] => []
  | first :: rest => first ++ rest.flatMap fun member => .output .comma :: member

def documentPieces (rule : Rule) : List (Piece Symbol) :=
  symbolPieces
      [ .opening .brace,
        .text "operator", .colon, .text rule.connective.keyword, .comma,
        .text "recipients", .colon, .opening .square ] ++
    separated (rule.recipients.map fun recipient => symbolPieces recipient.symbols) ++
    symbolPieces
      [ .closing .square, .comma, .text "children", .colon, .opening .square ] ++
    separated (rule.parts.map fun part => [.part part]) ++
    symbolPieces [ .closing .square, .closing .brace ]

@[simp] theorem partsOf_symbolPieces (symbols : List Symbol) :
    Piece.partsOf (symbolPieces symbols) = [] :=
  Piece.partsOf_map_output symbols id

theorem partsOf_separated (members : List (List (Piece Symbol))) :
    Piece.partsOf (separated members) = members.flatMap Piece.partsOf := by
  cases members with
  | nil => rfl
  | cons first rest =>
      rw [separated, Piece.partsOf_append, List.flatMap_cons]
      congr 1
      induction rest with
      | nil => rfl
      | cons member rest ih =>
          simp [ih]

@[simp] theorem partsOf_recipientMembers (recipients : List Recipient) :
    Piece.partsOf
      (separated (recipients.map fun recipient => symbolPieces recipient.symbols)) = [] := by
  simp [partsOf_separated]

@[simp] theorem partsOf_partMembers (parts : List Rule) :
    Piece.partsOf (separated (parts.map fun part => [.part part])) = parts := by
  simp [partsOf_separated, List.flatMap_map]

theorem partsOf_documentPieces (rule : Rule) :
    Piece.partsOf (documentPieces rule) = rule.parts := by
  simp [documentPieces]

def document : Layout Symbol :=
  ⟨documentPieces, partsOf_documentPieces⟩

def symbols (rule : Rule) : List Symbol :=
  document.write rule

def compactJson (rule : Rule) : String :=
  Json.compact rule.symbols

def indentedJsonLines (rule : Rule) : List Text.Line :=
  Json.indentedLines rule.symbols

def indentedJson (rule : Rule) : String :=
  Json.indented rule.symbols

end Rule
end AccessRules
