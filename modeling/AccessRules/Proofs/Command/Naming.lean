import AccessRules.Proofs.Command.Document
import AccessRules.Proofs.Command.Outline
import AccessRules.Proofs.Rule.Slots

/-!
# What a name book adds to the output

A rule that was read has no labels, so a book gives each of its recipients the label that its
token has in the book, or leaves it the token. In an outline this puts notes behind lines that
are there without the book, and in a document it fills the slots of the labels.
-/

namespace AccessRules

/-- What a recipient without a label of its own is shown as. -/
def NameBook.shown (book : NameBook) (lone : Recipient) : String :=
  (book.label? lone.token).getD lone.token

theorem Recipient.named_unlabelled (book : NameBook) (lone : Recipient) :
    (lone.named fun recipient => some recipient.token).named book.naming =
      lone.named fun recipient => some (book.shown recipient) := by
  show (lone.withLabel lone.token).named book.naming = lone.withLabel (book.shown lone)
  rw [named, NameBook.naming, token_withLabel, NameBook.shown]
  cases book.label? lone.token <;> rfl

theorem Rule.named_of_unlabelled {rule : Rule} (h : rule.unlabelled = rule) (book : NameBook) :
    rule.named book.naming = namedTree (fun recipient => some (book.shown recipient)) rule := by
  rw [named_eq_namedTree]
  calc
    namedTree book.naming rule = namedTree book.naming rule.unlabelled := by
        rw [h]
    _ = namedTree (fun recipient => some (book.shown recipient)) rule :=
        namedTree_namedTree (Recipient.named_unlabelled book) rule

namespace Command

open Expression (parse)

/-!
## Notes behind the lines of an outline
-/

theorem onOneLine_line (entry : Entry) : Text.OnOneLine entry.line :=
  Text.onOneLine_append_iff.mpr
    ⟨Text.onOneLine_spaces _, Text.onOneLine_of_isWord entry.token.isWord_word⟩

theorem line_named (naming : Naming) (entry : Entry) : (entry.named naming).line = entry.line := by
  rcases entry with ⟨level, keyword | lone⟩
  · rfl
  · show Call.indentation level ++ (lone.named naming).token = Call.indentation level ++ lone.token
    rw [Recipient.token_named]

theorem addition_recipient (book : NameBook) (level : Nat) (lone : Recipient) :
    (Entry.mk level (.recipient lone)).addition book =
      if book.shown lone = lone.token then "" else " (" ++ book.shown lone ++ ")" := by
  cases hfound : book.label? lone.token with
  | none =>
      simp only [Entry.addition, NameBook.shown, hfound]
      exact (if_pos rfl).symm
  | some label =>
      simp only [Entry.addition, NameBook.shown, hfound]
      rfl

theorem note_named_shown (book : NameBook) (entry : Entry) :
    (entry.named fun recipient => some (book.shown recipient)).note = entry.addition book := by
  rcases entry with ⟨level, keyword | lone⟩
  · rfl
  · rw [addition_recipient]
    show (if book.shown lone != lone.token then " (" ++ book.shown lone ++ ")" else "") = _
    by_cases hlabel : book.shown lone = lone.token
    · rw [if_pos hlabel, if_neg fun h => bne_iff_ne.mp h hlabel]
    · rw [if_neg hlabel, if_pos (bne_iff_ne.mpr hlabel)]

theorem written_outline_named {rule : Rule} (h : rule.unlabelled = rule) (book : NameBook) :
    written (outline (rule.named book.naming)) = outlineWith (Entry.addition book) rule := by
  rw [Rule.named_of_unlabelled h, written_outline, outlineWith, entries_namedTree, List.map_map,
    outlineWith]
  congr 1
  apply List.map_congr_left
  intro entry _
  show (entry.named _).line ++ (entry.named _).note ++ "\n" = _
  rw [line_named, note_named_shown]

/-!
## Labels in the slots of a document
-/

/-- The text of a document between the labels, with the line break behind it. -/
def slotsOf (rule : Rule) : List (Slot String) :=
  Slot.spaced 0 false rule.slots ++ [.fixed "\n"]

theorem recipients_slotsOf (rule : Rule) :
    (slotsOf rule).filterMap Slot.recipient? = rule.allRecipients := by
  rw [slotsOf, List.filterMap_append, Slot.recipients_spaced, Rule.recipients_slots]
  exact List.append_nil _

theorem written_documentWrites_namedTree (shown : Recipient -> String) (rule : Rule) :
    written (documentWrites (Rule.namedTree (fun recipient => some (shown recipient)) rule)) =
      String.join ((slotsOf rule).map (Slot.text shown)) := by
  rw [written_documentWrites, Rule.symbols_namedTree, Slot.spaced_flatMap_symbols, slotsOf,
    List.map_append, String.join_append]
  rfl

/-!
## Runs with names
-/

/-- An outline is printed with names as without them, with notes behind some of its lines, and
a document with other labels. An expression that is not accepted fails whatever the names
are. -/
theorem names_only_add_names (source : Source) (invocation : Invocation) (settings : Settings)
    (around : Surroundings) :
    let ran := fun names json file =>
      source.run ({ invocation with names, json }.asking .tree) settings { around with file }
    (forall rule file path book,
      parse settings.limit source.text = .ok rule -> readNames file path = .ok book ->
        (forall json, (ran none json file).ending = .ok .success ∧
          (ran (some path) json file).ending = .ok .success) ∧
        (forall entry, entry ∈ entries rule -> Text.OnOneLine entry.line) ∧
        written (ran none false file).writes = outlineWith (fun _ => "") rule ∧
        written (ran (some path) false file).writes = outlineWith (Entry.addition book) rule ∧
        exists slots : List (Slot String),
          slots.filterMap Slot.recipient? = rule.allRecipients ∧
            written (ran none true file).writes =
              String.join (slots.map (Slot.text Recipient.token)) ∧
            written (ran (some path) true file).writes =
              String.join (slots.map (Slot.text book.shown))) ∧
      forall fault, parse settings.limit source.text = .error fault ->
        forall names otherNames json file otherFile,
          ran names json file = ran otherNames json otherFile := by
  intro ran
  constructor
  · intro rule file path book hparse hread
    have hunlabelled : rule.unlabelled = rule := (Expression.reading_of_parse hparse).2.2
    have hplain : forall json, ran none json file =
        ⟨Expression.records source.text (.ok rule), treeWrites json rule, .ok .success⟩ :=
      fun json => Source.run_tree_of_parse { invocation with names := none, json }
        { around with file } hparse rfl
    have hnamed : forall json, ran (some path) json file =
        ⟨Expression.records source.text (.ok rule) ++ [namesRecord path book],
          treeWrites json (rule.named book.naming), .ok .success⟩ :=
      fun json => Source.run_tree_of_names { invocation with names := some path, json }
        { around with file } hparse rfl hread
    refine ⟨fun json => ⟨congrArg Execution.ending (hplain json),
      congrArg Execution.ending (hnamed json)⟩, fun entry _ => onOneLine_line entry, ?_, ?_,
      slotsOf rule, recipients_slotsOf rule, ?_, ?_⟩
    · rw [hplain]
      exact written_outline_of_unlabelled hunlabelled
    · rw [hnamed]
      exact written_outline_named hunlabelled book
    · rw [hplain, <- written_documentWrites_namedTree]
      exact congrArg (fun rule => written (documentWrites rule)) hunlabelled.symm
    · rw [hnamed, Rule.named_of_unlabelled hunlabelled]
      exact written_documentWrites_namedTree book.shown rule
  · intro fault hparse names otherNames json file otherFile
    have hfailed : forall names file, ran names json file =
        .failed (Expression.records source.text (.error fault)) (.notParsed source.text fault) :=
      fun names file => Source.run_tree_of_error { invocation with names, json }
        { around with file } hparse
    rw [hfailed, hfailed]

/-- Of the names in a file one is a token with another label, one is a token with itself for a
label, and one is no token. -/
theorem names_only_add_names_of_tokens :
    exists (source unread : Source) (invocation : Invocation) (settings : Settings)
        (around : Surroundings) (file : String -> Except FileFault ByteArray),
      source = .operands "U:a" ["U:b OR", "*", "AND"] ∧ unread = .input "U:a U:b" ∧
        file "names" =
          .ok (Text.encode "\x7b\"U:a\":\"x\\n(y)\",\"U:b\":\"U:b\",\" \":\"\"\x7d") ∧
        let ran := fun (source : Source) names json file =>
          source.run ({ invocation with names, json }.asking .tree) settings { around with file }
        written (ran source none false file).writes = "AND\n  *\n  OR\n    U:a\n    U:b\n" ∧
          written (ran source (some "names") false file).writes =
            "AND\n  *\n  OR\n    U:a (x\n(y))\n    U:b\n" ∧
          ran unread none false file = ran unread (some "names") false file := by
  let rule : Rule := ⟨.and, [.everyone],
    [⟨.or, [⟨.user, "a", "U:a", rfl⟩, ⟨.user, "b", "U:b", rfl⟩], []⟩]⟩
  let book : NameBook := ((NameBook.empty.enter "U:a" "x\n(y)").enter "U:b" "U:b").enter " " ""
  let file : String -> Except FileFault ByteArray := fun _ =>
    .ok (Text.encode "\x7b\"U:a\":\"x\\n(y)\",\"U:b\":\"U:b\",\" \":\"\"\x7d")
  have hparse : parse (Settings.mk .warn 5).limit
      (Source.operands "U:a" ["U:b OR", "*", "AND"]).text = .ok rule := rfl
  have hunread : parse (Settings.mk .warn 5).limit (Source.input "U:a U:b").text =
      .error (.unjoinedOperands 2) := rfl
  have hread : readNames file "names" = .ok book := by
    simp only [readNames, file, Text.decode?_encode]
    rfl
  have hentries : entries rule =
      [⟨0, .connective .and⟩, ⟨1, .recipient .everyone⟩, ⟨1, .connective .or⟩,
        ⟨2, .recipient ⟨.user, "a", "U:a", rfl⟩⟩, ⟨2, .recipient ⟨.user, "b", "U:b", rfl⟩⟩] := by
    rw [entries, Rule.rows_eq_rowsFrom]
    rfl
  rcases (names_only_add_names (.operands "U:a" ["U:b OR", "*", "AND"])
    ⟨.tree, none, none, none, false, []⟩ ⟨.warn, 5⟩
    ⟨ByteArray.empty, fun _ => .error .missing⟩).1 rule file "names" book hparse hread with
    ⟨-, -, hplain, hnamed, -⟩
  have hunnamed := (names_only_add_names (.input "U:a U:b") ⟨.tree, none, none, none, false, []⟩
    ⟨.warn, 5⟩ ⟨ByteArray.empty, fun _ => .error .missing⟩).2 _ hunread
  refine ⟨_, _, ⟨.tree, none, none, none, false, []⟩, ⟨.warn, 5⟩,
    ⟨ByteArray.empty, fun _ => .error .missing⟩, file, rfl, rfl, rfl, ?_, ?_, ?_⟩
  · refine hplain.trans ?_
    rw [outlineWith, hentries]
    rfl
  · refine hnamed.trans ?_
    rw [outlineWith, hentries]
    simp only [List.map_cons, List.map_nil, Entry.addition, book, NameBook.label?_enter,
      NameBook.label?_empty]
    rfl
  · exact hunnamed _ _ _ _ _

end Command
end AccessRules
