import AccessRules.Command.Report
import AccessRules.Proofs.Command.Agreement
import AccessRules.Proofs.Command.Arguments
import AccessRules.Proofs.Text.Decimal
import AccessRules.Proofs.Text.Trim

/-!
# Layers of settings

Each setting has three layers: the command line, the environment and the defaults. The
layers of one setting have nothing to do with those of the other, but a value in the
environment that names no setting ends the run, whether it would count or not.
-/

namespace AccessRules
namespace Command

open Expression (Fault parse)

/-!
## Names of settings

A severity has its spelling for a name, in letters of either case, and a limit a numeral.
Blanks around a name do not matter.
-/

def severitySpellings : List (String × Severity) :=
  [("trace", .trace), ("debug", .debug), ("info", .info), ("warn", .warn), ("warning", .warn),
    ("error", .error)]

def NamesSeverity (given : String) (severity : Severity) : Prop :=
  exists core, Text.TrimsTo given core ∧ (core.map Char.toLower, severity) ∈ severitySpellings

def NamesLimit (given : String) (limit : Nat) : Prop :=
  exists core, Text.TrimsTo given core ∧ Text.Spells core limit ∧ 1 ≤ limit ∧ limit < UInt64.size

theorem severityNamed?_eq_some_iff {name : String} {severity : Severity} :
    severityNamed? name = some severity ↔ (name, severity) ∈ severitySpellings := by
  constructor
  · intro h
    unfold severityNamed? at h
    split at h
    · next hname =>
        cases h
        rw [hname]
        decide
    · have hfound := List.find?_some h
      have hname : severity.name = name := of_decide_eq_true hfound
      rw [<- hname]
      cases severity <;> decide
  · intro h
    simp only [severitySpellings, List.mem_cons, Prod.mk.injEq, List.not_mem_nil, or_false] at h
    rcases h with ⟨rfl, rfl⟩ | ⟨rfl, rfl⟩ | ⟨rfl, rfl⟩ | ⟨rfl, rfl⟩ | ⟨rfl, rfl⟩ | ⟨rfl, rfl⟩ <;>
      decide

/-- What a reader of values accepts, and how it refuses everything else. -/
structure Accepts {setting : Type} (read : String -> Except SettingFault setting)
    (Names : String -> setting -> Prop) (refusal : String -> SettingFault) : Prop where
  ok_iff : forall {given value}, read given = .ok value ↔ Names given value
  eq_refusal : forall {given fault}, read given = .error fault -> fault = refusal given

theorem accepts_readSeverity :
    Accepts readSeverity NamesSeverity SettingFault.unknownSeverity where
  ok_iff := by
    intro given severity
    have hread : readSeverity given = .ok severity ↔
        severityNamed? ((Text.trim given).map Char.toLower) = some severity := by
      unfold readSeverity
      split
      · next found hfound =>
          rw [hfound, Except.ok.injEq, Option.some.injEq]
      · next hnone =>
          rw [hnone]
          exact ⟨nofun, nofun⟩
    rw [hread, severityNamed?_eq_some_iff, NamesSeverity]
    simp only [<- Text.trim_eq_iff, exists_eq_left']
  eq_refusal := by
    intro given fault h
    unfold readSeverity at h
    split at h
    · cases h
    · cases h
      rfl

theorem accepts_readLimit : Accepts readLimit NamesLimit SettingFault.badLimit where
  ok_iff := by
    intro given limit
    have hread : readLimit given = .ok limit ↔
        Text.numeral? largestLimit (Text.trim given) = some limit ∧ limit ≠ 0 := by
      unfold readLimit
      split
      · next found hfound =>
          split
          · next hzero =>
              rw [hfound, hzero]
              exact ⟨nofun, fun h => absurd (Option.some.inj h.1).symm h.2⟩
          · next hpositive =>
              rw [hfound, Except.ok.injEq, Option.some.injEq]
              exact ⟨fun h => ⟨h, h ▸ hpositive⟩, And.left⟩
      · next hnone =>
          rw [hnone]
          exact ⟨nofun, nofun⟩
    rw [hread, Text.numeral?_eq_some_iff, NamesLimit]
    simp only [<- Text.trim_eq_iff, exists_eq_left', Nat.one_le_iff_ne_zero]
    rw [and_assoc, and_comm (a := limit ≤ largestLimit), <- Nat.lt_succ_iff]
    rfl
  eq_refusal := by
    intro given fault h
    unfold readLimit at h
    split at h
    · split at h
      · cases h
        rfl
      · cases h
    · cases h
      rfl

/-!
## One setting

What the environment gives is read before the command line is looked at. So a value that
names nothing is a fault in any case, and a valid one may be left without effect.
-/

section Layers

variable {setting : Type} {Names : String -> setting -> Prop}

/-- The environment has a value for the setting that names nothing. -/
def NamesNothing (Names : String -> setting -> Prop) (given? : Option String)
    (given : String) : Prop :=
  given? = some given ∧ forall value, ¬ Names given value

/-- The value of a setting, from the first of its layers that has one. -/
inductive Layered (Names : String -> setting -> Prop) (chosen? : Option setting)
    (given? : Option String) (fallback : setting) : setting -> Prop where
  | chosen {value : setting} (hchosen : chosen? = some value) :
      Layered Names chosen? given? fallback value
  | given {text : String} {value : setting} (hchosen : chosen? = none)
      (hgiven : given? = some text) (hnames : Names text value) :
      Layered Names chosen? given? fallback value
  | fallback (hchosen : chosen? = none) (hgiven : given? = none) :
      Layered Names chosen? given? fallback fallback

/-- The value of the two layers below the command line. -/
def valueOr (read : String -> Except SettingFault setting) (fallback : setting) :
    Option String -> Except SettingFault setting
  | some given => read given
  | none => .ok fallback

variable {read : String -> Except SettingFault setting} {refusal : String -> SettingFault}
  (haccepts : Accepts read Names refusal) {given? : Option String} {fallback : setting}

include haccepts

theorem Accepts.valueOr_eq_error_iff {fault : SettingFault} :
    valueOr read fallback given? = .error fault ↔
      exists given, NamesNothing Names given? given ∧ fault = refusal given := by
  cases given? with
  | none =>
      constructor
      · exact nofun
      · intro h
        rcases h with ⟨_, hnothing, -⟩
        cases hnothing.1
  | some given =>
      constructor
      · intro h
        refine ⟨given, ⟨rfl, ?_⟩, haccepts.eq_refusal h⟩
        intro value hnames
        cases (haccepts.ok_iff.mpr hnames).symm.trans h
      · intro h
        rcases h with ⟨_, ⟨⟨⟩, hnothing⟩, rfl⟩
        cases hread : read given with
        | error fault =>
            rw [valueOr, hread, haccepts.eq_refusal hread]
        | ok value =>
            exact absurd (haccepts.ok_iff.mp hread) (hnothing value)

theorem Accepts.exists_valueOr_eq_ok_iff :
    (exists value, valueOr read fallback given? = .ok value) ↔
      forall given, ¬ NamesNothing Names given? given := by
  constructor
  · intro h given hnothing
    rcases h with ⟨value, hvalue⟩
    cases hvalue.symm.trans (haccepts.valueOr_eq_error_iff.mpr ⟨given, hnothing, rfl⟩)
  · intro hnamed
    cases hbelow : valueOr read fallback given? with
    | error fault =>
        rcases haccepts.valueOr_eq_error_iff.mp hbelow with ⟨given, hnothing, -⟩
        exact absurd hnothing (hnamed given)
    | ok value =>
        exact ⟨value, rfl⟩

/-- The two layers below the command line have a value unless the environment names nothing,
and then the command line goes before them. -/
theorem Accepts.layered_iff {chosen? : Option setting} {value : setting} :
    (exists below, valueOr read fallback given? = .ok below ∧ chosen?.getD below = value) ↔
      (forall given, ¬ NamesNothing Names given? given) ∧
        Layered Names chosen? given? fallback value := by
  rw [<- haccepts.exists_valueOr_eq_ok_iff]
  constructor
  · intro h
    rcases h with ⟨below, hbelow, rfl⟩
    refine ⟨⟨below, hbelow⟩, ?_⟩
    cases chosen? with
    | some value =>
        exact .chosen rfl
    | none =>
        cases given? with
        | some given =>
            exact .given rfl rfl (haccepts.ok_iff.mp hbelow)
        | none =>
            cases hbelow
            exact .fallback rfl rfl
  · intro h
    rcases h with ⟨⟨below, hbelow⟩, hlayered⟩
    refine ⟨below, hbelow, ?_⟩
    cases hlayered with
    | chosen hchosen =>
        rw [hchosen, Option.getD_some]
    | given hchosen hgiven hnames =>
        rw [hgiven] at hbelow
        cases (haccepts.ok_iff.mpr hnames).symm.trans hbelow
        rw [hchosen, Option.getD_none]
    | fallback hchosen hgiven =>
        rw [hgiven] at hbelow
        cases hbelow
        rw [hchosen, Option.getD_none]

end Layers

/-!
## Both settings
-/

section Environment

variable {invocation : Invocation} {valueOf : String -> Option String}

theorem ofEnvironment_eq :
    Settings.ofEnvironment valueOf =
      (do
        let threshold ← valueOr readSeverity .warn (valueOf Settings.severityVariable)
        let limit ← valueOr readLimit 10000 (valueOf Settings.limitVariable)
        return ⟨threshold, limit⟩) := by
  unfold Settings.ofEnvironment valueOr
  cases valueOf Settings.severityVariable <;> cases valueOf Settings.limitVariable <;> rfl

theorem settingsFor_eq :
    settingsFor invocation valueOf =
      (do
        let threshold ← valueOr readSeverity .warn (valueOf Settings.severityVariable)
        let limit ← valueOr readLimit 10000 (valueOf Settings.limitVariable)
        .ok ⟨invocation.severity.getD threshold, invocation.limit.getD limit⟩) := by
  rw [settingsFor, ofEnvironment_eq]
  cases valueOr readSeverity .warn (valueOf Settings.severityVariable) with
  | error _ =>
      rfl
  | ok _ =>
      cases valueOr readLimit 10000 (valueOf Settings.limitVariable) <;> rfl

theorem settingsFor_eq_error_iff {fault : SettingFault} :
    settingsFor invocation valueOf = .error fault ↔
      (exists given, NamesNothing NamesSeverity (valueOf Settings.severityVariable) given ∧
        fault = .unknownSeverity given) ∨
      ((forall given, ¬ NamesNothing NamesSeverity (valueOf Settings.severityVariable) given) ∧
        exists given, NamesNothing NamesLimit (valueOf Settings.limitVariable) given ∧
          fault = .badLimit given) := by
  rw [settingsFor_eq, bind_eq_error_iff, accepts_readSeverity.valueOr_eq_error_iff]
  simp only [bind_eq_error_iff, accepts_readLimit.valueOr_eq_error_iff, reduceCtorEq, and_false,
    exists_false, or_false, exists_and_right, accepts_readSeverity.exists_valueOr_eq_ok_iff]

theorem settingsFor_eq_ok_iff {settings : Settings} :
    settingsFor invocation valueOf = .ok settings ↔
      (forall given, ¬ NamesNothing NamesSeverity (valueOf Settings.severityVariable) given) ∧
      (forall given, ¬ NamesNothing NamesLimit (valueOf Settings.limitVariable) given) ∧
      Layered NamesSeverity invocation.severity (valueOf Settings.severityVariable) .warn
        settings.threshold ∧
      Layered NamesLimit invocation.limit (valueOf Settings.limitVariable) 10000
        settings.limit := by
  rw [settingsFor_eq]
  simp only [bind_eq_ok_iff]
  constructor
  · intro h
    rcases h with ⟨threshold, hthreshold, limit, hlimit, ⟨⟩⟩
    rcases accepts_readSeverity.layered_iff.mp ⟨threshold, hthreshold, rfl⟩ with
      ⟨hseverity, hthresholdLayered⟩
    rcases accepts_readLimit.layered_iff.mp ⟨limit, hlimit, rfl⟩ with ⟨hbound, hlimitLayered⟩
    exact ⟨hseverity, hbound, hthresholdLayered, hlimitLayered⟩
  · intro h
    rcases h with ⟨hseverity, hbound, hthresholdLayered, hlimitLayered⟩
    rcases accepts_readSeverity.layered_iff.mpr ⟨hseverity, hthresholdLayered⟩ with
      ⟨threshold, hthreshold, hchosenThreshold⟩
    rcases accepts_readLimit.layered_iff.mpr ⟨hbound, hlimitLayered⟩ with
      ⟨limit, hlimit, hchosenLimit⟩
    refine ⟨threshold, hthreshold, limit, hlimit, ?_⟩
    rw [hchosenThreshold, hchosenLimit]

theorem limit_bounds_of_layered {chosen? : Option Nat} {given? : Option String} {limit : Nat}
    (hchosen : forall chosen, chosen? = some chosen -> exists given, NamesLimit given chosen)
    (h : Layered NamesLimit chosen? given? 10000 limit) : 1 ≤ limit ∧ limit < UInt64.size := by
  have hbounds : forall given, NamesLimit given limit -> 1 ≤ limit ∧ limit < UInt64.size :=
    fun given hnames => hnames.elim fun _ hcore => hcore.2.2
  cases h with
  | chosen hlimit =>
      rcases hchosen limit hlimit with ⟨given, hnames⟩
      exact hbounds given hnames
  | given _ _ hnames =>
      exact hbounds _ hnames
  | fallback _ _ =>
      decide

end Environment

theorem namesLimit_of_within {words : List String} {invocation : Invocation}
    (h : invocation.Within words) {limit : Nat} (hlimit : invocation.limit = some limit) :
    exists given, NamesLimit given limit := by
  rcases h.limit limit hlimit with ⟨given, -, hread⟩
  exact ⟨given, accepts_readLimit.ok_iff.mp hread⟩

/-!
## The limit in a run

Every action answers with what the expression was parsed as. The limit has no other part in
the answer.
-/

section Answers

variable (invocation : Invocation) (around : Surroundings) (text : String)

/-- The answer of an action to what the text was parsed as. -/
inductive Answers : Except Fault Rule -> Execution -> Prop where
  | accepted {rule : Rule} (haction : invocation.action = .check) :
      Answers (.ok rule) ⟨Expression.records text (.ok rule), approval, .ok .success⟩
  | rejected {fault : Fault} (haction : invocation.action = .check) :
      Answers (.error fault)
        ⟨Expression.records text (.error fault) ++
          [⟨.info, "acl_expr_cli::commands", "expression rejected", [("error", fault.message)]⟩],
          rejection fault, .ok .rejected⟩
  | refused {fault : Fault} (haction : invocation.action ≠ .check) :
      Answers (.error fault)
        (.failed (Expression.records text (.error fault)) (.notParsed text fault))
  | spelled {rule : Rule} (haction : invocation.action = .canonical) :
      Answers (.ok rule)
        ⟨Expression.records text (.ok rule), canonicalLine rule, .ok .success⟩
  | shown {rule : Rule} (haction : invocation.action = .tree) (hnames : invocation.names = none) :
      Answers (.ok rule)
        ⟨Expression.records text (.ok rule), treeWrites invocation.json rule, .ok .success⟩
  | named {rule : Rule} {path : String} {book : NameBook} (haction : invocation.action = .tree)
      (hnames : invocation.names = some path) (hbook : readNames around.file path = .ok book) :
      Answers (.ok rule)
        ⟨Expression.records text (.ok rule) ++ [namesRecord path book],
          treeWrites invocation.json (rule.named book.naming), .ok .success⟩
  | nameless {rule : Rule} {path : String} {failure : Failure}
      (haction : invocation.action = .tree) (hnames : invocation.names = some path)
      (hbook : readNames around.file path = .error failure) :
      Answers (.ok rule) (.failed (Expression.records text (.ok rule)) failure)

variable {invocation around text} (limit : Nat)

theorem answers_runCheck (haction : invocation.action = .check) :
    Answers invocation around text (parse limit text) (runCheck limit text) := by
  cases h : parse limit text with
  | error fault =>
      rw [runCheck_of_error h]
      exact .rejected haction
  | ok rule =>
      rw [runCheck_of_parse h]
      exact .accepted haction

theorem answers_withRule (haction : invocation.action ≠ .check)
    {next : List LogRecord -> Rule -> Execution}
    (hnext : forall rule,
      Answers invocation around text (.ok rule)
        (next (Expression.records text (.ok rule)) rule)) :
    Answers invocation around text (parse limit text) (withRule limit text next) := by
  cases h : parse limit text with
  | error fault =>
      rw [withRule_of_error h]
      exact .refused haction
  | ok rule =>
      rw [withRule_of_parse h]
      exact hnext rule

theorem answers_runTree (haction : invocation.action = .tree) :
    Answers invocation around text (parse limit text)
      (runTree limit text invocation.names invocation.json around.file) := by
  apply answers_withRule limit (by rw [haction]; decide)
  intro rule
  cases hnames : invocation.names with
  | none =>
      exact .shown haction hnames
  | some path =>
      dsimp only
      cases hbook : readNames around.file path with
      | error failure =>
          exact .nameless haction hnames hbook
      | ok book =>
          exact .named haction hnames hbook

theorem answers_run (settings : Settings)
    (htext : expressionText invocation.words around.input = .ok text) :
    Answers invocation around text (parse settings.limit text)
      (run invocation settings around) := by
  rw [run, htext]
  dsimp only
  cases haction : invocation.action with
  | check =>
      exact answers_runCheck settings.limit haction
  | canonical =>
      exact answers_withRule settings.limit (by rw [haction]; decide) fun _ => .spelled haction
  | tree =>
      exact answers_runTree settings.limit haction

end Answers

/-!
## Layering
-/

/-- The whole run of a command line reports what its action answers, and the limit of the
parser is the one of the settings. -/
structure RunsUnder (settings : Settings) (arguments : List String)
    (valueOf : String -> Option String) (around : Surroundings) (invocation : Invocation) :
    Prop where
  positive : 1 ≤ settings.limit
  bounded : settings.limit < UInt64.size
  report : exists execution,
    Report.ofRun arguments valueOf around = .ofExecution settings execution ∧
      forall text, expressionText invocation.words around.input = .ok text ->
        Answers invocation around text (parse settings.limit text) execution

section WholeRuns

variable {arguments : List String} {invocation : Invocation}
  {valueOf : String -> Option String} (hread : readArguments arguments = .ok invocation)

include hread

theorem ofRun_of_settingsFor_eq_error {fault : SettingFault}
    (h : settingsFor invocation valueOf = .error fault) (around : Surroundings) :
    Report.ofRun arguments valueOf around =
      ⟨1, "", [], Failure.reportChain [fault.message]⟩ := by
  rw [Report.ofRun, hread]
  dsimp only
  rw [h]

theorem ofRun_of_settingsFor_eq_ok {settings : Settings}
    (h : settingsFor invocation valueOf = .ok settings) (around : Surroundings) :
    Report.ofRun arguments valueOf around =
      .ofExecution settings (run invocation settings around) := by
  rw [Report.ofRun, hread]
  dsimp only
  rw [h]

end WholeRuns

/-- The settings fail just when the environment has a value that names nothing, that of the
severity first. Else each of them comes from the first of its own layers that has a value,
and every action parses under a limit that fits a word of 64 bits. -/
theorem settings_are_layered_by_field (invocation : Invocation)
    (valueOf : String -> Option String) :
    let severityGiven? := valueOf Settings.severityVariable
    let limitGiven? := valueOf Settings.limitVariable
    (forall given severity, readSeverity given = .ok severity ↔ NamesSeverity given severity) ∧
      (forall fault, settingsFor invocation valueOf = .error fault ↔
        (exists given, NamesNothing NamesSeverity severityGiven? given ∧
          fault = .unknownSeverity given) ∨
        ((forall given, ¬ NamesNothing NamesSeverity severityGiven? given) ∧
          exists given, NamesNothing NamesLimit limitGiven? given ∧ fault = .badLimit given)) ∧
      (forall settings, settingsFor invocation valueOf = .ok settings ↔
        (forall given, ¬ NamesNothing NamesSeverity severityGiven? given) ∧
        (forall given, ¬ NamesNothing NamesLimit limitGiven? given) ∧
        Layered NamesSeverity invocation.severity severityGiven? .warn settings.threshold ∧
        Layered NamesLimit invocation.limit limitGiven? 10000 settings.limit) ∧
      (forall settings, settingsFor invocation valueOf = .ok settings ->
        (forall limit, invocation.limit = some limit -> exists given, NamesLimit given limit) ->
          1 ≤ settings.limit ∧ settings.limit < UInt64.size) ∧
      forall (arguments : List String) (around : Surroundings),
        readArguments arguments = .ok invocation ->
          invocation.Within arguments ∧
          (forall fault, settingsFor invocation valueOf = .error fault ->
            Report.ofRun arguments valueOf around =
              ⟨1, "", [], Failure.reportChain [fault.message]⟩) ∧
          forall settings, settingsFor invocation valueOf = .ok settings ->
            RunsUnder settings arguments valueOf around invocation := by
  intro severityGiven? limitGiven?
  have hbounds : forall settings, settingsFor invocation valueOf = .ok settings ->
      (forall limit, invocation.limit = some limit -> exists given, NamesLimit given limit) ->
        1 ≤ settings.limit ∧ settings.limit < UInt64.size := by
    intro settings hsettings hchosen
    rcases settingsFor_eq_ok_iff.mp hsettings with ⟨-, -, -, hlimit⟩
    exact limit_bounds_of_layered hchosen hlimit
  refine ⟨fun _ _ => accepts_readSeverity.ok_iff, fun _ => settingsFor_eq_error_iff,
    fun _ => settingsFor_eq_ok_iff, hbounds, ?_⟩
  intro arguments around hread
  have hwithin := within_readArguments hread
  refine ⟨hwithin, fun _ hfault => ofRun_of_settingsFor_eq_error hread hfault around, ?_⟩
  intro settings hsettings
  rcases hbounds settings hsettings fun _ => namesLimit_of_within hwithin with
    ⟨hpositive, hbounded⟩
  exact ⟨hpositive, hbounded, run invocation settings around,
    ofRun_of_settingsFor_eq_ok hread hsettings around, fun _ => answers_run settings⟩

/-- The limit of the command line goes before that of the environment. It does not help a
value of the environment that names nothing. -/
theorem settings_are_layered_by_field_overridden :
    exists (invocation : Invocation) (valid broken : String -> Option String),
      readArguments ["--max-depth=7", "check", "U:a"] = .ok invocation ∧
        valid "ACL_EXPR_LOG_LEVEL" = some " Warning\n" ∧ valid "ACL_EXPR_MAX_DEPTH" = some "+5" ∧
          settingsFor invocation valid = .ok ⟨.warn, 7⟩ ∧
            broken "ACL_EXPR_LOG_LEVEL" = some "loud" ∧ broken "ACL_EXPR_MAX_DEPTH" = some "0" ∧
              settingsFor invocation broken = .error (.unknownSeverity "loud") ∧
                (Report.ofRun ["--max-depth=7", "check", "U:a"] broken
                  ⟨ByteArray.empty, fun _ => .error .missing⟩).status = 1 := by
  let invocation : Invocation := ⟨.check, none, some 7, none, false, ["U:a"]⟩
  let valid : String -> Option String :=
    fun name => if name = "ACL_EXPR_LOG_LEVEL" then some " Warning\n" else some "+5"
  let broken : String -> Option String :=
    fun name => if name = "ACL_EXPR_LOG_LEVEL" then some "loud" else some "0"
  have hread : readArguments ["--max-depth=7", "check", "U:a"] = .ok invocation := rfl
  have hwarning : NamesSeverity " Warning\n" .warn :=
    ⟨"Warning", Text.trim_eq_iff.mp rfl, by decide +kernel⟩
  have hfive : NamesLimit "+5" 5 := accepts_readLimit.ok_iff.mp rfl
  have hloud : NamesNothing NamesSeverity (broken Settings.severityVariable) "loud" := by
    refine ⟨rfl, ?_⟩
    intro severity hnames
    rcases hnames with ⟨core, htrims, hcore⟩
    rw [<- Text.trim_eq_iff.mpr htrims] at hcore
    cases severity <;> revert hcore <;> decide +kernel
  have hsettings : settingsFor invocation valid = .ok ⟨.warn, 7⟩ := by
    apply ((settings_are_layered_by_field invocation valid).2.2.1 _).mpr
    refine ⟨?_, ?_, .given rfl rfl hwarning, .chosen rfl⟩
    · intro given hnothing
      cases hnothing.1
      exact hnothing.2 _ hwarning
    · intro given hnothing
      cases hnothing.1
      exact hnothing.2 _ hfive
  have hfault : settingsFor invocation broken = .error (.unknownSeverity "loud") :=
    ((settings_are_layered_by_field invocation broken).2.1 _).mpr (Or.inl ⟨"loud", hloud, rfl⟩)
  have hreport := ((settings_are_layered_by_field invocation broken).2.2.2.2 _
    ⟨ByteArray.empty, fun _ => .error .missing⟩ hread).2.1 _ hfault
  exact ⟨invocation, valid, broken, hread, rfl, rfl, hsettings, rfl, rfl, hfault,
    congrArg Report.status hreport⟩

end Command
end AccessRules
