import AccessRules.Command.Source
import AccessRules.Proofs.Command.Agreement

/-!
# Layout and source of an expression

A run looks at nothing but the words of its expression. How they are laid out, how they are
dealt out to operands and whether they come from standard input makes no difference, except
that a failure to read the expression quotes the text that it was given.
-/

namespace AccessRules
namespace Command

open Expression (Fault parse records)

/-- The same failure with another text in the place of the one that it quotes. -/
def Failure.quoting (text : String) : Failure -> Failure
  | notParsed _ fault => .notParsed text fault
  | failure => failure

/-- An execution agrees with another one in its log, its writes and the way it ends, up to the
text of the expression that a failure quotes. -/
structure AgreesQuoting (text : String) (again execution : Execution) : Prop where
  log : again.log = execution.log
  writes : again.writes = execution.writes
  ending : again.ending = execution.ending.mapError (Failure.quoting text)

/-!
## Runs on texts with the same words
-/

section Words

variable {text other : String} (h : Text.words other = Text.words text) (limit : Nat)

include h

theorem parse_of_words : parse limit other = parse limit text := by
  rw [parse, parse, h]

theorem records_of_words (result : Except Fault Rule) :
    records other result = records text result := by
  rw [records, records, h]

theorem runCheck_of_words :
    AgreesQuoting other (runCheck limit other) (runCheck limit text) := by
  cases hparse : parse limit text with
  | ok rule =>
      rw [runCheck_of_parse hparse, runCheck_of_parse ((parse_of_words h limit).trans hparse),
        records_of_words h]
      exact ⟨rfl, rfl, rfl⟩
  | error fault =>
      rw [runCheck_of_error hparse, runCheck_of_error ((parse_of_words h limit).trans hparse),
        records_of_words h]
      exact ⟨rfl, rfl, rfl⟩

/-- What is done with a rule may fail, but it reads no expression again. -/
theorem withRule_of_words {next : List LogRecord -> Rule -> Execution}
    (hnext : forall log rule, AgreesQuoting other (next log rule) (next log rule)) :
    AgreesQuoting other (withRule limit other next) (withRule limit text next) := by
  cases hparse : parse limit text with
  | ok rule =>
      rw [withRule_of_parse hparse, withRule_of_parse ((parse_of_words h limit).trans hparse),
        records_of_words h]
      exact hnext _ rule
  | error fault =>
      rw [withRule_of_error hparse, withRule_of_error ((parse_of_words h limit).trans hparse),
        records_of_words h]
      exact ⟨rfl, rfl, rfl⟩

end Words

theorem quoting_of_readNames_error {file : String -> Except FileFault ByteArray} {path : String}
    {failure : Failure} (h : readNames file path = .error failure) (text : String) :
    failure.quoting text = failure := by
  unfold readNames at h
  split at h
  · cases h
    rfl
  · split at h
    · cases h
      rfl
    · split at h
      · cases h
        rfl
      · cases h

/-!
## Runs on sources
-/

namespace Source

theorem expressionText_eq (source : Source) (bytes : ByteArray) :
    expressionText source.operandList (source.inputBytes bytes) = .ok source.text := by
  cases source with
  | operands first later =>
      rfl
  | input text =>
      show expressionText [] (Text.encode text) = .ok text
      simp [expressionText]

theorem run_eq (source : Source) (invocation : Invocation) (settings : Settings)
    (around : Surroundings) :
    source.run invocation settings around =
      match invocation.action with
      | .check => runCheck settings.limit source.text
      | .canonical => runCanonical settings.limit source.text
      | .tree =>
          runTree settings.limit source.text invocation.names invocation.json around.file := by
  cases haction : invocation.action <;>
    simp only [run, Command.run, expressionText_eq, haction]

section Runs

variable {source : Source} {settings : Settings} {rule : Rule} {fault : Fault}
  (invocation : Invocation) (around : Surroundings)

theorem run_canonical_of_parse (h : parse settings.limit source.text = .ok rule) :
    source.run (invocation.asking .canonical) settings around =
      ⟨records source.text (.ok rule), canonicalLine rule, .ok .success⟩ := by
  rw [run_eq]
  exact withRule_of_parse h _

theorem run_canonical_of_error (h : parse settings.limit source.text = .error fault) :
    source.run (invocation.asking .canonical) settings around =
      .failed (records source.text (.error fault)) (.notParsed source.text fault) := by
  rw [run_eq]
  exact withRule_of_error h _

theorem run_tree_of_parse (h : parse settings.limit source.text = .ok rule)
    (hnames : invocation.names = none) :
    source.run (invocation.asking .tree) settings around =
      ⟨records source.text (.ok rule), treeWrites invocation.json rule, .ok .success⟩ := by
  rw [run_eq]
  exact (withRule_of_parse h _).trans (by simp [hnames])

theorem run_tree_of_names (h : parse settings.limit source.text = .ok rule) {path : String}
    {book : NameBook} (hnames : invocation.names = some path)
    (hread : readNames around.file path = .ok book) :
    source.run (invocation.asking .tree) settings around =
      ⟨records source.text (.ok rule) ++ [namesRecord path book],
        treeWrites invocation.json (rule.named book.naming), .ok .success⟩ := by
  rw [run_eq]
  refine (withRule_of_parse h _).trans ?_
  simp [hnames, hread]

theorem run_tree_of_error (h : parse settings.limit source.text = .error fault) :
    source.run (invocation.asking .tree) settings around =
      .failed (records source.text (.error fault)) (.notParsed source.text fault) := by
  rw [run_eq]
  exact withRule_of_error h _

end Runs

theorem run_of_words {source other : Source}
    (h : Text.words other.text = Text.words source.text) (invocation : Invocation)
    (settings : Settings) (around : Surroundings) :
    AgreesQuoting other.text (other.run invocation settings around)
      (source.run invocation settings around) := by
  rw [run_eq, run_eq]
  cases invocation.action with
  | check =>
      exact runCheck_of_words h settings.limit
  | canonical =>
      exact withRule_of_words h settings.limit fun _ _ => ⟨rfl, rfl, rfl⟩
  | tree =>
      apply withRule_of_words h settings.limit
      intro log rule
      cases invocation.names with
      | none =>
          exact ⟨rfl, rfl, rfl⟩
      | some path =>
          cases hnames : readNames around.file path with
          | error failure =>
              refine ⟨rfl, rfl, ?_⟩
              simp only [hnames]
              exact congrArg Except.error (quoting_of_readNames_error hnames other.text).symm
          | ok book =>
              refine ⟨rfl, rfl, ?_⟩
              simp only [hnames]
              rfl

/-- Sources that are laid out from the same words run alike, whatever is asked for. The words
of some operands are those of one operand after the other, and next to operands it does not
matter what standard input holds. -/
theorem layout_and_source_do_not_matter (invocation : Invocation) (settings : Settings)
    (around : Surroundings) :
    (forall (source other : Source) (words : List String),
      Text.LaidOut source.text.toList words -> Text.LaidOut other.text.toList words ->
        AgreesQuoting other.text (other.run invocation settings around)
          (source.run invocation settings around)) ∧
      (forall (first : String) (later words : List String),
        Text.LaidOut (operands first later).text.toList words ↔
          words = (first :: later).flatMap Text.words) ∧
        forall (first : String) (later : List String) (bytes : ByteArray),
          (operands first later).run invocation settings { around with input := bytes } =
            (operands first later).run invocation settings around := by
  refine ⟨?_, ?_, ?_⟩
  · intro source other words hsource hother
    have hwords : Text.words other.text = Text.words source.text :=
      (Text.laidOut_iff.mp hother).trans (Text.laidOut_iff.mp hsource).symm
    exact run_of_words hwords invocation settings around
  · intro first later words
    rw [Text.laidOut_iff, text, Text.words_intercalate_space]
    exact eq_comm
  · intro first later bytes
    rw [run_eq, run_eq]

/-- An empty operand and one with two words in it, against lines on standard input: both
runs miss the same operand. -/
theorem layout_and_source_do_not_matter_for_lines :
    exists dealtOut lines : Source,
      dealtOut = operands "" ["U:a\tNOT", " ", "AND"] ∧
        lines = input "U:a\n  NOT\x0d\nAND\n" ∧
          Text.LaidOut dealtOut.text.toList ["U:a", "NOT", "AND"] ∧
            Text.LaidOut lines.text.toList ["U:a", "NOT", "AND"] ∧
              (dealtOut.run ⟨.canonical, none, none, none, false, []⟩ ⟨.warn, 5⟩
                  ⟨ByteArray.empty, fun _ => .error .missing⟩).ending =
                .error (.notParsed dealtOut.text (.missingOperands .and 2 2 1)) ∧
                (lines.run ⟨.canonical, none, none, none, false, []⟩ ⟨.warn, 5⟩
                    ⟨ByteArray.empty, fun _ => .error .missing⟩).ending =
                  .error (.notParsed lines.text (.missingOperands .and 2 2 1)) := by
  have hdealtOut : Text.LaidOut (operands "" ["U:a\tNOT", " ", "AND"]).text.toList
      ["U:a", "NOT", "AND"] := Text.laidOut_iff.mpr (by decide)
  have hlines : Text.LaidOut (input "U:a\n  NOT\x0d\nAND\n").text.toList
      ["U:a", "NOT", "AND"] := Text.laidOut_iff.mpr (by decide)
  have hparse : parse 5 (operands "" ["U:a\tNOT", " ", "AND"]).text =
      .error (.missingOperands .and 2 2 1) := rfl
  have hended : ((operands "" ["U:a\tNOT", " ", "AND"]).run
      ⟨.canonical, none, none, none, false, []⟩ ⟨.warn, 5⟩
      ⟨ByteArray.empty, fun _ => .error .missing⟩).ending =
        .error (.notParsed (operands "" ["U:a\tNOT", " ", "AND"]).text
          (.missingOperands .and 2 2 1)) := by
    rw [run_eq, runCanonical, withRule_of_error hparse]
    rfl
  have hagree := (layout_and_source_do_not_matter ⟨.canonical, none, none, none, false, []⟩
    ⟨.warn, 5⟩ ⟨ByteArray.empty, fun _ => .error .missing⟩).1 _ _ _ hdealtOut hlines
  refine ⟨_, _, rfl, rfl, hdealtOut, hlines, hended, ?_⟩
  rw [hagree.ending, hended]
  rfl

end Source

end Command
end AccessRules
