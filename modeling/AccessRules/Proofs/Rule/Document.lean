import AccessRules.Rule.Document
import AccessRules.Proofs.Json.Document
import AccessRules.Proofs.Rule.Labels

/-!
# Documents determine rules

The symbols of a document tell where each member of a list ends, so the whole rule can be
told from them: its connectives, its parts and its recipients with their labels. The labels
are the only strings that a naming changes, and each of them stands behind its own name.
-/

namespace AccessRules

open Json (Symbol)

/-!
## Members with separators between them
-/

def joinedBy (separator : α) : List (List α) -> List α
  | [] => []
  | first :: rest => first ++ rest.flatMap (separator :: ·)

theorem flatMap_joinedBy {separator : α} {other : β} {code : α -> List β}
    (h : code separator = [other]) (members : List (List α)) :
    (joinedBy separator members).flatMap code =
      joinedBy other (members.map fun member => member.flatMap code) := by
  cases members with
  | nil =>
      rfl
  | cons first rest =>
      rw [joinedBy, List.flatMap_append, List.flatMap_assoc, List.map_cons, joinedBy,
        List.flatMap_map]
      congr 2
      funext member
      rw [List.flatMap_cons, h]
      rfl

theorem filterMap_joinedBy {separator : α} {select : α -> Option β}
    (h : select separator = none) (members : List (List α)) :
    (joinedBy separator members).filterMap select =
      members.flatMap fun member => member.filterMap select := by
  cases members with
  | nil =>
      rfl
  | cons first rest =>
      rw [joinedBy, List.filterMap_append, List.filterMap_flatMap, List.flatMap_cons]
      congr 2
      funext member
      exact List.filterMap_cons_none h

namespace Rule

/-!
## The symbols of a node
-/

def nodeStart (connective : Connective) : List Symbol :=
  [ .opening .brace,
    .text "operator", .colon, .text connective.keyword, .comma,
    .text "recipients", .colon, .opening .square ]

def nodeMiddle : List Symbol :=
  [ .closing .square, .comma, .text "children", .colon, .opening .square ]

def nodeEnd : List Symbol :=
  [ .closing .square, .closing .brace ]

theorem flatMap_symbolPieces (symbols : List Symbol) :
    (symbolPieces symbols).flatMap document.expand = symbols := by
  rw [symbolPieces, List.flatMap_map]
  exact List.flatMap_singleton' symbols

theorem separated_eq_joinedBy (members : List (List (Piece Symbol))) :
    separated members = joinedBy (.output .comma) members := by
  cases members <;> rfl

theorem symbols_eq (rule : Rule) :
    rule.symbols =
      nodeStart rule.connective ++ joinedBy .comma (rule.recipients.map Recipient.symbols) ++
        nodeMiddle ++ joinedBy .comma (rule.parts.map symbols) ++ nodeEnd := by
  have hcomma : document.expand (.output .comma) = [Symbol.comma] := rfl
  have hrecipients : forall lone : Recipient,
      (symbolPieces lone.symbols).flatMap document.expand = lone.symbols :=
    fun lone => flatMap_symbolPieces lone.symbols
  have hparts : forall part : Rule, [Piece.part part].flatMap document.expand = part.symbols :=
    fun part => List.append_nil _
  rw [symbols, document.write_eq]
  show (documentPieces rule).flatMap document.expand = _
  simp only [documentPieces, List.flatMap_append, flatMap_symbolPieces, separated_eq_joinedBy,
    flatMap_joinedBy hcomma, List.map_map, Function.comp_def, hrecipients, hparts]
  rfl

/-!
## Where a member ends

A member splits off when nothing that comes behind it can be taken for a part of it. Members
that all split off can be told apart in a list, because a closing bracket starts none.
-/

end Rule

def SplitsOff (code : α -> List Symbol) (item : α) : Prop :=
  forall other later otherLater,
    code item ++ later = code other ++ otherLater -> item = other ∧ later = otherLater

theorem tail_append_inj {code : α -> List Symbol} {later otherLater : List Symbol} :
    (items others : List α) -> (forall item, item ∈ items -> SplitsOff code item) ->
      (items.map code).flatMap (Symbol.comma :: ·) ++ .closing .square :: later =
        (others.map code).flatMap (Symbol.comma :: ·) ++ .closing .square :: otherLater ->
          items = others ∧ later = otherLater
  | [], [], _, h => ⟨rfl, (List.cons.inj h).2⟩
  | [], other :: others, _, h => by cases (List.cons.inj h).1
  | item :: items, [], _, h => by cases (List.cons.inj h).1
  | item :: items, other :: others, hitems, h => by
      rcases List.forall_mem_cons.mp hitems with ⟨hfirst, hrest⟩
      rw [List.map_cons, List.map_cons, List.flatMap_cons, List.flatMap_cons, List.append_assoc,
        List.append_assoc, List.cons_append, List.cons_append] at h
      rcases hfirst _ _ _ (List.cons.inj h).2 with ⟨hitem, htail⟩
      rcases tail_append_inj items others hrest htail with ⟨htails, hlater⟩
      exact ⟨by rw [hitem, htails], hlater⟩

theorem joinedBy_append_inj {code : α -> List Symbol}
    (hstart : forall item, (code item).head? = some (.opening .brace)) {items others : List α}
    {later otherLater : List Symbol} (hitems : forall item, item ∈ items -> SplitsOff code item)
    (h : joinedBy .comma (items.map code) ++ .closing .square :: later =
      joinedBy .comma (others.map code) ++ .closing .square :: otherLater) :
    items = others ∧ later = otherLater := by
  have hclosed : forall (item : α) (tail later behind : List Symbol),
      code item ++ tail ++ later ≠ .closing .square :: behind := by
    intro item tail later behind hclosed
    have hhead := congrArg List.head? hclosed
    rw [List.append_assoc, List.head?_append, hstart] at hhead
    cases hhead
  cases items with
  | nil =>
      cases others with
      | nil =>
          exact ⟨rfl, (List.cons.inj h).2⟩
      | cons other others =>
          exact absurd h.symm (hclosed other _ _ _)
  | cons item items =>
      cases others with
      | nil =>
          exact absurd h (hclosed item _ _ _)
      | cons other others =>
          rcases List.forall_mem_cons.mp hitems with ⟨hfirst, hrest⟩
          rw [List.map_cons, List.map_cons, joinedBy, joinedBy, List.append_assoc,
            List.append_assoc] at h
          rcases hfirst _ _ _ h with ⟨hitem, htail⟩
          rcases tail_append_inj items others hrest htail with ⟨htails, hlater⟩
          exact ⟨by rw [hitem, htails], hlater⟩

/-!
## Documents of recipients and rules
-/

theorem Kind.name_injective {a b : Kind} (h : a.name = b.name) : a = b := by
  cases a <;> cases b <;> first | rfl | (exact absurd h (by decide))

theorem Connective.keyword_injective {a b : Connective} (h : a.keyword = b.keyword) : a = b := by
  have hfound := ofKeyword?_keyword a
  rw [h, ofKeyword?_keyword b] at hfound
  exact (Option.some.inj hfound).symm

theorem Recipient.splitsOff_symbols (lone : Recipient) : SplitsOff symbols lone := by
  intro other later otherLater h
  simp only [symbols, List.cons_append, List.nil_append, List.cons.injEq, Symbol.text.injEq,
    true_and] at h
  rcases h with ⟨hkind, hlabel, hvalue, hlater⟩
  refine ⟨?_, hlater⟩
  cases lone
  cases other
  cases Kind.name_injective hkind
  cases hlabel
  cases hvalue
  rfl

namespace Rule

theorem nodeStart_append_inj {connective other : Connective} {later otherLater : List Symbol}
    (h : nodeStart connective ++ later = nodeStart other ++ otherLater) :
    connective = other ∧ later = otherLater := by
  rcases List.append_inj h rfl with ⟨hstart, hlater⟩
  have hkeyword : Symbol.text connective.keyword = Symbol.text other.keyword :=
    congrArg (·.getD 3 .comma) hstart
  exact ⟨Connective.keyword_injective (Symbol.text.inj hkeyword), hlater⟩

theorem head?_symbols (rule : Rule) : rule.symbols.head? = some (.opening .brace) := by
  rw [symbols_eq, List.append_assoc, List.append_assoc, List.append_assoc]
  rfl

mutual

theorem splitsOff_symbols : (rule : Rule) -> SplitsOff symbols rule
  | ⟨connective, recipients, parts⟩ => by
      intro ⟨otherConnective, otherRecipients, otherParts⟩ later otherLater h
      rw [symbols_eq, symbols_eq ⟨otherConnective, _, _⟩] at h
      simp only [List.append_assoc] at h
      rcases nodeStart_append_inj h with ⟨hconnective, hmembers⟩
      rcases joinedBy_append_inj (fun _ => rfl) (fun lone _ => lone.splitsOff_symbols) hmembers
        with ⟨hrecipients, hmiddle⟩
      rcases joinedBy_append_inj head?_symbols (splitsOff_of_mem parts)
        (List.append_cancel_left hmiddle) with ⟨hparts, hend⟩
      exact ⟨by rw [hconnective, hrecipients, hparts], List.append_cancel_left hend⟩

theorem splitsOff_of_mem :
    (rules : List Rule) -> forall rule, rule ∈ rules -> SplitsOff symbols rule
  | [] => List.forall_mem_nil _
  | rule :: rest => List.forall_mem_cons.mpr ⟨splitsOff_symbols rule, splitsOff_of_mem rest⟩

end

theorem compactJson_injective {rule other : Rule} (h : rule.compactJson = other.compactJson) :
    rule = other := by
  have hsymbols := congrArg (· ++ []) (Json.compact_injective h)
  exact (rule.splitsOff_symbols other [] [] hsymbols).1

end Rule
end AccessRules
