import AccessRules.Command.Run
import AccessRules.Proofs.Expression.Canonical
import AccessRules.Proofs.Expression.Fault
import AccessRules.Proofs.Command.Output
import AccessRules.Proofs.Text.Lines

/-!
# Agreement of the actions

All actions read the expression in the same way. So they accept the same expressions, and
where a check lists what is wrong the others fail with the very same fault. A canonical
line is an expression again, and every action takes it for the one that it came from.
-/

namespace AccessRules
namespace Command

open Expression (Fault TokenFault parse tokenFaults)
open Text (OnOneLine)

/-- The same command line with another action. -/
def Invocation.asking (invocation : Invocation) (action : Action) : Invocation :=
  { invocation with action }

/-- The same command line without operands, so that the expression is the input. -/
def Invocation.withoutWords (invocation : Invocation) : Invocation :=
  { invocation with words := [] }

/-- The same surroundings with a text as the input. -/
def Surroundings.feeding (around : Surroundings) (text : String) : Surroundings :=
  { around with input := Text.encode text }

section Updates

variable (invocation : Invocation) (action : Action) (around : Surroundings) (text : String)

@[simp] theorem action_asking : (invocation.asking action).action = action := rfl

@[simp] theorem words_asking : (invocation.asking action).words = invocation.words := rfl

@[simp] theorem names_asking : (invocation.asking action).names = invocation.names := rfl

@[simp] theorem json_asking : (invocation.asking action).json = invocation.json := rfl

@[simp] theorem words_withoutWords : invocation.withoutWords.words = [] := rfl

@[simp] theorem input_feeding : (around.feeding text).input = Text.encode text := rfl

end Updates

/-- The line of a check about one faulty word. -/
def tokenFaultLine (fault : TokenFault) : String :=
  fault.word ++ ": " ++ fault.objection.message ++ " (token " ++ toString fault.position ++ ")"

/-!
## Lines of a refusal

A faulty word has no separators, so the line about it is not broken anywhere. The messages
of the faults of structure hold nothing but fixed texts and numerals.
-/

theorem onOneLine_tokenFaultLine {words : List String}
    (hwords : forall word, word ∈ words -> Text.IsWord word) {fault : TokenFault}
    (h : fault ∈ tokenFaults words) : OnOneLine (tokenFaultLine fault) := by
  have hat := (Expression.mem_tokenFaults_iff.mp h).1
  have hword := Text.onOneLine_of_isWord (hwords fault.word (List.mem_of_getElem? hat))
  have hobjection : OnOneLine fault.objection.message := by
    cases fault.objection <;> decide
  have hposition := Text.onOneLine_numeral fault.position
  simp only [tokenFaultLine, Text.onOneLine_append_iff]
  exact ⟨⟨⟨⟨⟨hword, by decide⟩, hobjection⟩, by decide⟩, hposition⟩, by decide⟩

theorem onOneLine_message_of_ofStructure {limit : Nat} {fault : Fault}
    (h : fault.OfStructure limit) : OnOneLine fault.message := by
  unfold Fault.message
  cases fault with
  | badTokens faults =>
      exact absurd rfl (h.ne_badTokens faults)
  | noTokens =>
      decide +kernel
  | missingOperands connective position required available =>
      have hkeyword : OnOneLine connective.keyword := by
        cases connective <;> decide
      simp only [Text.onOneLine_append_iff]
      refine ⟨⟨⟨⟨⟨⟨⟨⟨?_, hkeyword⟩, ?_⟩, Text.onOneLine_numeral position⟩, ?_⟩,
        Text.onOneLine_numeral required⟩, ?_⟩, Text.onOneLine_numeral available⟩, ?_⟩
      all_goals decide +kernel
  | unjoinedOperands count =>
      exact Text.onOneLine_append_iff.mpr ⟨Text.onOneLine_numeral count, by decide +kernel⟩
  | tooDeep bound =>
      exact Text.onOneLine_append_iff.mpr ⟨by decide +kernel, Text.onOneLine_numeral bound⟩

theorem rejection_of_ofStructure {limit : Nat} {fault : Fault} (h : fault.OfStructure limit) :
    rejection fault = [lineWrite 0 fault.message "failed to write check failure"] := by
  cases fault with
  | badTokens faults =>
      exact absurd rfl (h.ne_badTokens faults)
  | noTokens | missingOperands | unjoinedOperands | tooDeep =>
      rfl

/-- The output of a refusing check is one line for every faulty word or, if there is none,
one line for the fault of structure. -/
theorem exists_lines_of_parse_error {limit : Nat} {text : String} {fault : Fault}
    (h : parse limit text = .error fault) :
    exists lines : List String,
      written (rejection fault) = String.join (lines.map fun line => line ++ "\n") ∧
        (forall line, line ∈ lines -> OnOneLine line) ∧
          ((lines = (tokenFaults (Text.words text)).map tokenFaultLine ∧ lines ≠ []) ∨
            (lines = [fault.message] ∧ tokenFaults (Text.words text) = [])) := by
  rcases Expression.parse_error_cases h with ⟨rfl, hne⟩ | ⟨hstructure, hnone⟩
  · refine ⟨(tokenFaults (Text.words text)).map tokenFaultLine, ?_, ?_, ?_⟩
    · exact written_map_lineWrite_zero tokenFaultLine _ _
    · intro line hline
      rcases List.mem_map.mp hline with ⟨fault, hfault, rfl⟩
      exact onOneLine_tokenFaultLine (fun word => Text.isWord_of_mem_words) hfault
    · exact Or.inl ⟨rfl, fun hnil => hne (List.map_eq_nil_iff.mp hnil)⟩
  · refine ⟨[fault.message], ?_, ?_, Or.inr ⟨rfl, hnone⟩⟩
    · rw [rejection_of_ofStructure hstructure]
      exact written_map_lineWrite_zero Fault.message
        (fun _ => "failed to write check failure") [fault]
    · exact List.forall_mem_singleton.mpr (onOneLine_message_of_ofStructure hstructure)

/-!
## The runs of one expression
-/

section Runs

variable {limit : Nat} {text other : String} {rule : Rule} {fault : Fault}

theorem runCheck_of_parse (h : parse limit text = .ok rule) :
    runCheck limit text =
      ⟨Expression.records text (.ok rule), approval, .ok .success⟩ := by
  simp only [runCheck, h]

theorem runCheck_of_error (h : parse limit text = .error fault) :
    runCheck limit text =
      ⟨Expression.records text (.error fault) ++
        [⟨.info, "acl_expr_cli::commands", "expression rejected", [("error", fault.message)]⟩],
        rejection fault, .ok .rejected⟩ := by
  simp only [runCheck, h]

theorem withRule_of_parse (h : parse limit text = .ok rule)
    (next : List LogRecord -> Rule -> Execution) :
    withRule limit text next = next (Expression.records text (.ok rule)) rule := by
  simp only [withRule, h, Expression.normalForm_of_parse h]

theorem withRule_of_error (h : parse limit text = .error fault)
    (next : List LogRecord -> Rule -> Execution) :
    withRule limit text next =
      .failed (Expression.records text (.error fault)) (.notParsed text fault) := by
  simp only [withRule, h]

/-- What a tree is printed as depends on the rule, not on the text that it was read from. -/
theorem runTree_of_same_rule (h : parse limit text = .ok rule)
    (hother : parse limit other = .ok rule) (names : Option String) (json : Bool)
    (file : String -> Except FileFault ByteArray) :
    (runTree limit other names json file).writes = (runTree limit text names json file).writes ∧
      (runTree limit other names json file).ending =
        (runTree limit text names json file).ending := by
  rw [runTree, runTree, withRule_of_parse h, withRule_of_parse hother]
  cases names with
  | none =>
      exact ⟨rfl, rfl⟩
  | some path =>
      dsimp only
      cases readNames file path <;> exact ⟨rfl, rfl⟩

end Runs

section Actions

variable {invocation : Invocation} {around : Surroundings} {text : String} {rule : Rule}
  {fault : Fault} (settings : Settings)
  (htext : expressionText invocation.words around.input = .ok text)

include htext

theorem run_asking_check :
    run (invocation.asking .check) settings around = runCheck settings.limit text := by
  simp [run, htext]

theorem run_asking_canonical :
    run (invocation.asking .canonical) settings around = runCanonical settings.limit text := by
  simp [run, htext]

theorem run_asking_tree :
    run (invocation.asking .tree) settings around =
      runTree settings.limit text invocation.names invocation.json around.file := by
  simp [run, htext]

theorem run_asking_of_error (h : parse settings.limit text = .error fault) {action : Action}
    (haction : action ≠ .check) :
    run (invocation.asking action) settings around =
      .failed (Expression.records text (.error fault)) (.notParsed text fault) := by
  cases action with
  | check =>
      exact absurd rfl haction
  | canonical =>
      rw [run_asking_canonical settings htext, runCanonical, withRule_of_error h]
  | tree =>
      rw [run_asking_tree settings htext, runTree, withRule_of_error h]

theorem run_asking_canonical_of_parse (h : parse settings.limit text = .ok rule) :
    run (invocation.asking .canonical) settings around =
      ⟨Expression.records text (.ok rule), canonicalLine rule, .ok .success⟩ := by
  rw [run_asking_canonical settings htext, runCanonical, withRule_of_parse h]

/-- Every action takes the canonical line of an expression for the expression itself. -/
theorem run_again_of_parse (h : parse settings.limit text = .ok rule) (action : Action) :
    let again :=
      run (invocation.withoutWords.asking action) settings
        (around.feeding (written (canonicalLine rule)))
    again.writes = (run (invocation.asking action) settings around).writes ∧
      again.ending = (run (invocation.asking action) settings around).ending := by
  have hline : written (canonicalLine rule) = rule.spell ++ "\n" := by
    simp [canonicalLine]
  have hagain : parse settings.limit (rule.spell ++ "\n") = .ok rule := by
    rw [parse, Text.words_append_lineBreak]
    exact Expression.parse_spell_of_parse h
  have hfed : expressionText invocation.withoutWords.words
      (around.feeding (rule.spell ++ "\n")).input = .ok (rule.spell ++ "\n") := by
    simp only [expressionText, words_withoutWords, input_feeding, Text.decode?_encode]
    rfl
  rw [hline]
  cases action with
  | check =>
      rw [run_asking_check settings htext, run_asking_check settings hfed,
        runCheck_of_parse h, runCheck_of_parse hagain]
      exact ⟨rfl, rfl⟩
  | canonical =>
      rw [run_asking_canonical_of_parse settings htext h,
        run_asking_canonical_of_parse settings hfed hagain]
      exact ⟨rfl, rfl⟩
  | tree =>
      rw [run_asking_tree settings htext, run_asking_tree settings hfed]
      exact runTree_of_same_rule h hagain _ _ _

theorem ending_asking_tree_of_parse (h : parse settings.limit text = .ok rule)
    (hnames : invocation.names = none) :
    (run (invocation.asking .tree) settings around).ending = .ok .success := by
  rw [run_asking_tree settings htext, runTree, withRule_of_parse h, hnames]

end Actions

/-!
## Agreement
-/

/-- A text is refused by all actions alike: by the check with lines that tell what is wrong,
and by the others with the same fault and nothing written. There is one line for every
faulty word, in the order of the text, or one for a fault of structure. -/
def RefusedAlike (limit : Nat) (text : String) (ran : Action -> Execution) : Prop :=
  exists (fault : Fault) (lines : List String),
    parse limit text = .error fault ∧
      ⟨.info, "acl_expr_cli::commands", "expression rejected",
          [("error", fault.message)]⟩ ∈ (ran .check).log ∧
        (forall action,
          action ≠ .check ->
            (ran action).ending = .error (.notParsed text fault) ∧ (ran action).writes = []) ∧
          written (ran .check).writes = String.join (lines.map fun line => line ++ "\n") ∧
            (forall line, line ∈ lines -> OnOneLine line) ∧
              ((lines = (tokenFaults (Text.words text)).map tokenFaultLine ∧ lines ≠ []) ∨
                (lines = [fault.message] ∧ tokenFaults (Text.words text) = []))

theorem refusedAlike_of_parse_error {limit : Nat} {text : String} {fault : Fault}
    (h : parse limit text = .error fault) {ran : Action -> Execution}
    (hcheck : ran .check = runCheck limit text)
    (hothers : forall action,
      action ≠ .check ->
        ran action = .failed (Expression.records text (.error fault)) (.notParsed text fault)) :
    RefusedAlike limit text ran := by
  rw [runCheck_of_error h] at hcheck
  rcases exists_lines_of_parse_error h with ⟨lines, hwritten, hlines, hlisted⟩
  refine ⟨fault, lines, h, ?_, ?_, ?_, hlines, hlisted⟩
  · rw [hcheck]
    exact List.mem_append_right _ (List.mem_singleton.mpr rfl)
  · intro action haction
    rw [hothers action haction]
    exact ⟨rfl, rfl⟩
  · rw [hcheck]
    exact hwritten

/-- A check accepts an expression just when it has a canonical line and just when it has a
tree, and what a check refuses is refused alike by all actions. Every action that is given
the canonical line as its input writes and ends as it does on the original. -/
theorem actions_agree (invocation : Invocation) (settings : Settings) (around : Surroundings)
    {text : String} (htext : expressionText invocation.words around.input = .ok text) :
    let ran := fun action => run (invocation.asking action) settings around
    let again := fun action =>
      run (invocation.withoutWords.asking action) settings
        (around.feeding (written (ran .canonical).writes))
    ((ran .check).ending = .ok .success ∨ (ran .check).ending = .ok .rejected) ∧
      ((ran .check).ending = .ok .success -> written (ran .check).writes = "ok\n") ∧
        ((ran .check).ending = .ok .success ↔ (ran .canonical).ending = .ok .success) ∧
          (invocation.names = none ->
            ((ran .check).ending = .ok .success ↔ (ran .tree).ending = .ok .success)) ∧
            ((ran .check).ending = .ok .rejected -> RefusedAlike settings.limit text ran) ∧
              ((ran .canonical).ending = .ok .success ->
                forall action,
                  (again action).writes = (ran action).writes ∧
                    (again action).ending = (ran action).ending) := by
  intro ran again
  have hcheck : ran .check = runCheck settings.limit text := run_asking_check settings htext
  cases h : parse settings.limit text with
  | error fault =>
      have hothers : forall action, action ≠ .check -> ran action = _ :=
        fun action => run_asking_of_error settings htext h
      have hrefused : RefusedAlike settings.limit text ran :=
        refusedAlike_of_parse_error h hcheck hothers
      rw [hcheck, runCheck_of_error h, hothers .canonical nofun, hothers .tree nofun]
      exact ⟨Or.inr rfl, nofun, ⟨nofun, nofun⟩, fun _ => ⟨nofun, nofun⟩, fun _ => hrefused,
        nofun⟩
  | ok rule =>
      rw [runCheck_of_parse h] at hcheck
      have hcanonical : ran .canonical = _ := run_asking_canonical_of_parse settings htext h
      have hwrites : canonicalLine rule = (ran .canonical).writes := by
        rw [hcanonical]
      have hagain := run_again_of_parse settings htext h
      rw [hwrites] at hagain
      have htree : invocation.names = none -> (ran .tree).ending = .ok .success :=
        ending_asking_tree_of_parse settings htext h
      refine ⟨Or.inl ?_, ?_, ?_, ?_, ?_, fun _ => hagain⟩
      · rw [hcheck]
      · rw [hcheck]
        intro _
        rfl
      · rw [hcheck, hcanonical]
      · intro hnames
        rw [hcheck, htree hnames]
      · rw [hcheck]
        nofun

/-- The canonical line puts the conjunction behind the lone recipient, so it differs from the
operands that it was made of. -/
theorem actions_agree_on_reordered :
    exists (invocation : Invocation) (settings : Settings) (around : Surroundings) (text : String),
      expressionText invocation.words around.input = .ok text ∧
        text = "U:a U:b AND U:c OR" ∧
          written (run (invocation.asking .check) settings around).writes = "ok\n" ∧
            written (run (invocation.asking .canonical) settings around).writes =
                "U:c U:a U:b AND OR\n" ∧
              (run (invocation.asking .tree) settings around).ending = .ok .success ∧
                (run (invocation.withoutWords.asking .tree) settings
                    (around.feeding "U:c U:a U:b AND OR\n")).writes =
                  (run (invocation.asking .tree) settings around).writes := by
  have htext : expressionText ["U:a U:b", "AND U:c OR"] ByteArray.empty =
      .ok "U:a U:b AND U:c OR" := rfl
  rcases actions_agree ⟨.tree, none, none, none, true, ["U:a U:b", "AND U:c OR"]⟩ ⟨.warn, 2⟩
      ⟨ByteArray.empty, fun _ => .error .missing⟩ htext with
    ⟨-, hwritten, hcanonical, htree, -, hagain⟩
  have hsuccess : (run ⟨.check, none, none, none, true, ["U:a U:b", "AND U:c OR"]⟩ ⟨.warn, 2⟩
      ⟨ByteArray.empty, fun _ => .error .missing⟩).ending = .ok .success := rfl
  have hparse : parse 2 "U:a U:b AND U:c OR" =
      .ok ⟨.or, [⟨.user, "c", "U:c", rfl⟩],
        [⟨.and, [⟨.user, "a", "U:a", rfl⟩, ⟨.user, "b", "U:b", rfl⟩], []⟩]⟩ := rfl
  have hline : written (run (Invocation.asking
      ⟨.tree, none, none, none, true, ["U:a U:b", "AND U:c OR"]⟩ .canonical) ⟨.warn, 2⟩
      ⟨ByteArray.empty, fun _ => .error .missing⟩).writes = "U:c U:a U:b AND OR\n" := by
    rw [run_asking_canonical_of_parse _ htext hparse, canonicalLine, written_single,
      rendered_lineWrite_zero, Rule.spell, Rule.tokens_eq_spelledTree]
    rfl
  have htreeAgain := (hagain (hcanonical.mp hsuccess) .tree).1
  simp only [hline] at htreeAgain
  exact ⟨_, _, _, _, htext, rfl, hwritten hsuccess, hline, (htree rfl).mp hsuccess, htreeAgain⟩

end Command
end AccessRules
