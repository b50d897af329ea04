import AccessRules.Proofs.Rule.Document

/-!
# The place of the labels in a document

A document is made of fixed parts and of one slot for the label of each recipient. Filling
the slots gives the document of the rule with those labels, and the indentation of a document
does not depend on what the slots are filled with.
-/

namespace AccessRules

open Json (Symbol)

inductive Slot (α : Type) where
  | fixed (content : α)
  | label (recipient : Recipient)

namespace Slot

def recipient? : Slot α -> Option Recipient
  | fixed _ => none
  | label lone => some lone

def symbols (shown : Recipient -> String) : Slot Symbol -> List Symbol
  | fixed symbol => [symbol]
  | label lone => [.text "display_name", .colon, .text (shown lone)]

def text (shown : Recipient -> String) : Slot String -> String
  | fixed text => text
  | label lone => Json.quote "display_name" ++ ": " ++ Json.quote (shown lone)

theorem flatMap_symbols_fixed (shown : Recipient -> String) (content : List Symbol) :
    (content.map fixed).flatMap (symbols shown) = content := by
  rw [List.flatMap_map]
  exact List.flatMap_singleton' content

theorem filterMap_recipient?_fixed (content : List α) :
    (content.map fixed).filterMap recipient? = [] := by
  rw [List.filterMap_map]
  exact List.filterMap_eq_nil_iff.mpr fun _ _ => rfl

end Slot

/-!
## Slots of recipients and rules
-/

def Recipient.slots (lone : Recipient) : List (Slot Symbol) :=
  [.opening .brace, .text "kind", .colon, .text lone.kind.name, .comma].map .fixed ++
    .label lone ::
      [.comma, .text "raw_value", .colon, .text lone.value, .closing .brace].map .fixed

namespace Rule

mutual

def slots : Rule -> List (Slot Symbol)
  | ⟨connective, recipients, parts⟩ =>
      (nodeStart connective).map .fixed ++
        joinedBy (.fixed .comma) (recipients.map Recipient.slots) ++ nodeMiddle.map .fixed ++
        joinedBy (.fixed .comma) (slotsOfAll parts) ++ nodeEnd.map .fixed

def slotsOfAll : List Rule -> List (List (Slot Symbol))
  | [] => []
  | rule :: rest => slots rule :: slotsOfAll rest

end

section Shown

variable (shown : Recipient -> String)

mutual

/-- The document of a labelled rule has the labels in the slots. -/
theorem symbols_namedTree :
    (rule : Rule) ->
      (namedTree (fun recipient => some (shown recipient)) rule).symbols =
        rule.slots.flatMap (Slot.symbols shown)
  | ⟨connective, recipients, parts⟩ => by
      have hcomma : (Slot.fixed Symbol.comma).symbols shown = [Symbol.comma] := rfl
      rw [namedTree, symbols_eq, slots, map_symbols_namedTrees parts]
      simp only [List.flatMap_append, Slot.flatMap_symbols_fixed, flatMap_joinedBy hcomma,
        List.map_map]
      rfl

theorem map_symbols_namedTrees :
    (rules : List Rule) ->
      (namedTrees (fun recipient => some (shown recipient)) rules).map symbols =
        (slotsOfAll rules).map fun slots => slots.flatMap (Slot.symbols shown)
  | [] => rfl
  | rule :: rest => by
      rw [namedTrees, slotsOfAll, List.map_cons, List.map_cons, symbols_namedTree rule,
        map_symbols_namedTrees rest]

end

end Shown

theorem flatMap_slots_recipients (recipients : List Recipient) :
    (recipients.map Recipient.slots).flatMap (List.filterMap Slot.recipient?) = recipients := by
  rw [List.flatMap_map]
  exact List.flatMap_singleton' recipients

mutual

/-- There is one slot for each recipient, in the order of the rule. -/
theorem recipients_slots :
    (rule : Rule) -> rule.slots.filterMap Slot.recipient? = rule.allRecipients
  | ⟨connective, recipients, parts⟩ => by
      have hcomma : (Slot.fixed Symbol.comma).recipient? = none := rfl
      rw [slots, allRecipients_eq]
      simp only [List.filterMap_append, Slot.filterMap_recipient?_fixed,
        filterMap_joinedBy hcomma, flatMap_slots_recipients, recipients_slotsOfAll parts,
        List.nil_append, List.append_nil]

theorem recipients_slotsOfAll :
    (rules : List Rule) ->
      (slotsOfAll rules).flatMap (List.filterMap Slot.recipient?) = rules.flatMap allRecipients
  | [] => rfl
  | rule :: rest => by
      rw [slotsOfAll, List.flatMap_cons, List.flatMap_cons, recipients_slots rule,
        recipients_slotsOfAll rest]

end

end Rule

/-!
## Slots between the gaps
-/

namespace Slot

/-- The slots with the symbols between them written out, and with the gaps around these. -/
def spaced (level : Nat) (opened : Bool) : List (Slot Symbol) -> List (Slot String)
  | [] => []
  | fixed symbol :: rest =>
      fixed (Json.gapBefore level opened symbol ++ symbol.written ++ Json.gapAfter level symbol) ::
        spaced (Json.levelAfter level symbol) (Json.opens symbol) rest
  | label lone :: rest =>
      fixed (Json.lineStartIf opened level) :: label lone :: spaced level false rest

theorem spaced_flatMap_symbols (shown : Recipient -> String) (level : Nat) (opened : Bool) :
    (slots : List (Slot Symbol)) ->
      Json.spaced level opened (slots.flatMap (symbols shown)) =
        String.join ((spaced level opened slots).map (text shown))
  | [] => rfl
  | fixed symbol :: rest => by
      rw [spaced, List.map_cons, String.join_cons,
        <- spaced_flatMap_symbols shown _ _ rest]
      rfl
  | label lone :: rest => by
      have hcolon : ": " = ":" ++ " " := rfl
      rw [spaced, List.map_cons, List.map_cons, String.join_cons, String.join_cons,
        <- spaced_flatMap_symbols shown _ _ rest]
      show Json.lineStartIf opened level ++ Json.quote "display_name" ++ "" ++
          ("" ++ ":" ++ " " ++ ("" ++ Json.quote (shown lone) ++ "" ++
            Json.spaced level false (rest.flatMap (symbols shown)))) =
        Json.lineStartIf opened level ++
          (Json.quote "display_name" ++ ": " ++ Json.quote (shown lone) ++
            Json.spaced level false (rest.flatMap (symbols shown)))
      simp only [hcolon, String.empty_append, String.append_empty, String.append_assoc]

theorem recipients_spaced (level : Nat) (opened : Bool) :
    (slots : List (Slot Symbol)) ->
      (spaced level opened slots).filterMap recipient? = slots.filterMap recipient?
  | [] => rfl
  | fixed _ :: rest => recipients_spaced _ _ rest
  | label lone :: rest => congrArg (lone :: ·) (recipients_spaced _ _ rest)

end Slot
end AccessRules
