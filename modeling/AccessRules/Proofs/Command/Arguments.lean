import AccessRules.Command.Arguments

/-!
# Values on a command line

A command line that is followed has taken the values of its options from its words, and has
accepted each of them. This holds before the first word, every word keeps it, and so it
holds when the last one has been read.
-/

namespace AccessRules
namespace Command

/-!
## Steps that may fail
-/

theorem bind_eq_ok_iff {fault first second : Type} {step : Except fault first}
    {next : first -> Except fault second} {result : second} :
    step >>= next = .ok result ↔ exists middle, step = .ok middle ∧ next middle = .ok result := by
  cases step with
  | error _ =>
      exact ⟨nofun, nofun⟩
  | ok value =>
      constructor
      · intro h
        exact ⟨value, rfl, h⟩
      · intro h
        rcases h with ⟨_, hvalue, h⟩
        cases hvalue
        exact h

theorem bind_eq_error_iff {fault first second : Type} {step : Except fault first}
    {next : first -> Except fault second} {found : fault} :
    step >>= next = .error found ↔
      step = .error found ∨ exists middle, step = .ok middle ∧ next middle = .error found := by
  cases step with
  | error reason =>
      constructor
      · intro h
        cases h
        exact Or.inl rfl
      · intro h
        rcases h with hfault | ⟨_, hvalue, -⟩
        · cases hfault
          rfl
        · cases hvalue
  | ok value =>
      constructor
      · intro h
        exact Or.inr ⟨value, rfl, h⟩
      · intro h
        rcases h with hfault | ⟨_, hvalue, h⟩
        · cases hfault
        · cases hvalue
          exact h

theorem mapError_eq_ok_iff {fault other value : Type} {step : Except fault value}
    {wrap : fault -> other} {result : value} :
    step.mapError wrap = .ok result ↔ step = .ok result := by
  cases step with
  | error _ =>
      exact ⟨nofun, nofun⟩
  | ok value =>
      constructor
      · intro h
        cases h
        rfl
      · intro h
        cases h
        rfl

/-!
## Offers
-/

/-- The long name of an option with a value. -/
def ValueOption.name : ValueOption -> String
  | severity => "log-level"
  | limit => "max-depth"
  | names => "names"

/-- The words hold the value, either by itself or attached to the name of the option. -/
def Offers (words : List String) (option : ValueOption) (value : String) : Prop :=
  value ∈ words ∨ "--" ++ option.name ++ "=" ++ value ∈ words

theorem name_of_option? {level : Level} {name : String} {option : ValueOption}
    (h : level.option? name = some (.valued option)) : name = option.name := by
  unfold Level.option? at h
  split at h <;> cases h <;> rfl

theorem eq_append_of_dropWhile_ne {c first : Char} {chars behind : List Char}
    (h : chars.dropWhile (· ≠ c) = first :: behind) :
    chars = chars.takeWhile (· ≠ c) ++ c :: behind := by
  have hfirst : first = c := by
    have hnot := List.head?_dropWhile_not (fun other => decide (other ≠ c)) chars
    rw [h] at hnot
    exact Decidable.not_not.mp (of_decide_eq_false hnot)
  rw [<- hfirst, <- h, hfirst, List.takeWhile_append_dropWhile]

theorem attached_of_ofText {word name value : String}
    (h : Word.ofText word = .long name (some value)) : word = "--" ++ name ++ "=" ++ value := by
  unfold Word.ofText at h
  split at h
  · cases h
  · next chars _ hword =>
      dsimp only at h
      split at h
      · cases h
      · next first attached hdrop =>
          cases h
          apply String.toList_injective
          simp only [String.toList_append, String.toList_ofList, List.append_assoc]
          rw [hword]
          exact congrArg (fun rest => '-' :: '-' :: rest) (eq_append_of_dropWhile_ne hdrop)
  · cases h
  · cases h

theorem offers_of_ofText {words : List String} {word name value : String} {level : Level}
    {option : ValueOption} (hmem : word ∈ words)
    (hword : Word.ofText word = .long name (some value))
    (hoption : level.option? name = some (.valued option)) : Offers words option value := by
  rw [attached_of_ofText hword, name_of_option? hoption] at hmem
  exact Or.inr hmem

/-!
## What is taken has been accepted
-/

/-- The values of the options come from the words, and each setting among them is one that its
text was read as. -/
structure TakenFrom (words : List String) (severity? : Option Severity) (limit? : Option Nat)
    (names? : Option String) : Prop where
  severity : forall severity, severity? = some severity ->
    exists value, Offers words .severity value ∧ readSeverity value = .ok severity
  limit : forall limit, limit? = some limit ->
    exists value, Offers words .limit value ∧ readLimit value = .ok limit
  names : forall path, names? = some path -> Offers words .names path

namespace Given

def Within (words : List String) (given : Given) : Prop :=
  TakenFrom words given.severity given.limit given.names

theorem within_empty (words : List String) : Within words {} :=
  ⟨nofun, nofun, nofun⟩

theorem within_take {words : List String} {given next : Given} {option : ValueOption}
    {value : String} (hgiven : given.Within words) (hoffers : Offers words option value)
    (h : given.take option value = .ok next) : next.Within words := by
  unfold take at h
  split at h
  · cases h
  · cases option with
    | severity =>
        rcases bind_eq_ok_iff.mp h with ⟨severity, hread, hnext⟩
        cases hnext
        refine ⟨?_, hgiven.limit, hgiven.names⟩
        intro taken htaken
        cases htaken
        exact ⟨value, hoffers, mapError_eq_ok_iff.mp hread⟩
    | limit =>
        rcases bind_eq_ok_iff.mp h with ⟨limit, hread, hnext⟩
        cases hnext
        refine ⟨hgiven.severity, ?_, hgiven.names⟩
        intro taken htaken
        cases htaken
        exact ⟨value, hoffers, mapError_eq_ok_iff.mp hread⟩
    | names =>
        dsimp only at h
        split at h
        · cases h
        · cases h
          refine ⟨hgiven.severity, hgiven.limit, ?_⟩
          intro taken htaken
          cases htaken
          exact hoffers

end Given

/-!
## One word

A word is taken as an option, as a value or as an operand. None of these leaves the words.
-/

namespace Progress

/-- A value that is pending is offered as well. -/
structure Within (words : List String) (progress : Progress) : Prop where
  given : progress.given.Within words
  pending : forall option value,
    progress.pending = some (option, some value) -> Offers words option value

theorem within_start (words : List String) : Within words {} :=
  ⟨Given.within_empty words, nofun⟩

section Steps

variable {words : List String} {progress next : Progress} (hprogress : progress.Within words)

include hprogress

theorem within_settle (h : progress.settle = .ok next) : next.Within words := by
  unfold settle at h
  split at h
  · cases h
    exact hprogress
  · cases h
  · next option value hpending =>
      rcases bind_eq_ok_iff.mp h with ⟨given, htake, hnext⟩
      cases hnext
      exact ⟨Given.within_take hprogress.given (hprogress.pending _ _ hpending) htake, nofun⟩

theorem within_takeSwitch {switch : Switch} (h : progress.takeSwitch switch = .ok next) :
    next.Within words := by
  rcases bind_eq_ok_iff.mp h with ⟨settled, hsettle, hnext⟩
  have hsettled := within_settle hprogress hsettle
  cases switch with
  | help | version =>
      cases hnext
  | json =>
      dsimp only at hnext
      split at hnext
      · cases hnext
      · cases hnext
        exact ⟨hsettled.given, hsettled.pending⟩

theorem within_takeOption {option : CommandOption} {attached : Option String}
    (hoffers : forall valued value,
      option = .valued valued -> attached = some value -> Offers words valued value)
    (h : progress.takeOption option attached = .ok next) : next.Within words := by
  unfold takeOption at h
  split at h
  · cases h
  · exact within_takeSwitch hprogress h
  · rcases bind_eq_ok_iff.mp h with ⟨settled, hsettle, hrest⟩
    rcases bind_eq_ok_iff.mp hrest with ⟨given, htake, hnext⟩
    have hsettled := within_settle hprogress hsettle
    cases hnext
    exact ⟨Given.within_take hsettled.given (hoffers _ _ rfl rfl) htake, hsettled.pending⟩
  · rcases bind_eq_ok_iff.mp h with ⟨settled, hsettle, hnext⟩
    have hsettled := within_settle hprogress hsettle
    cases hnext
    exact ⟨hsettled.given, nofun⟩

theorem within_takeOperand {level : Level} {word : String}
    (h : progress.takeOperand level word = .ok next) : next.Within words := by
  cases level with
  | outer =>
      cases h
  | inner action =>
      rcases bind_eq_ok_iff.mp h with ⟨settled, hsettle, hnext⟩
      have hsettled := within_settle hprogress hsettle
      cases hnext
      exact ⟨hsettled.given, hsettled.pending⟩

theorem within_takeWord {level : Level} {word : String} (hmem : word ∈ words)
    (h : progress.takeWord level word = .ok next) : next.Within words := by
  unfold takeWord at h
  split at h
  · exact within_takeOperand hprogress h
  · split at h
    · cases h
      exact ⟨hprogress.given, hprogress.pending⟩
    · next name attached hword =>
        split at h
        · next option hoption =>
            apply within_takeOption hprogress _ h
            rintro valued value rfl rfl
            exact offers_of_ofText hmem hword hoption
        · cases h
    · split at h
      · exact within_takeSwitch hprogress h
      · cases h
    · split at h
      · cases h
        refine ⟨hprogress.given, ?_⟩
        intro option value hpending
        cases hpending
        exact Or.inl hmem
      · exact within_takeOperand hprogress h

end Steps

end Progress

/-!
## All words

Both levels read words of one command line. Where they have values for the same setting, the
one of the action is kept.
-/

theorem within_readInner {words rest : List String} (hrest : rest ⊆ words) {action : Action}
    {progress : Progress} (hprogress : progress.Within words) {given : Given}
    (h : readInner action progress rest = .ok given) : given.Within words := by
  induction rest generalizing progress with
  | nil =>
      rcases bind_eq_ok_iff.mp h with ⟨settled, hsettle, hgiven⟩
      cases hgiven
      exact (Progress.within_settle hprogress hsettle).given
  | cons word rest ih =>
      rcases bind_eq_ok_iff.mp h with ⟨next, hword, hnext⟩
      rw [List.cons_subset] at hrest
      exact ih hrest.2 (Progress.within_takeWord hprogress hrest.1 hword) hnext

def Invocation.Within (words : List String) (invocation : Invocation) : Prop :=
  TakenFrom words invocation.severity invocation.limit invocation.names

theorem Invocation.within_ofLevels {words : List String} {action : Action}
    {outer inner : Given} (houter : outer.Within words) (hinner : inner.Within words) :
    (Invocation.ofLevels action outer inner).Within words := by
  refine ⟨?_, ?_, hinner.names⟩
  · intro severity hseverity
    rcases Option.or_eq_some_iff.mp hseverity with htaken | ⟨-, htaken⟩
    · exact hinner.severity severity htaken
    · exact houter.severity severity htaken
  · intro limit hlimit
    rcases Option.or_eq_some_iff.mp hlimit with htaken | ⟨-, htaken⟩
    · exact hinner.limit limit htaken
    · exact houter.limit limit htaken

theorem within_readOuter {words rest : List String} (hrest : rest ⊆ words)
    {progress : Progress} (hprogress : progress.Within words) {invocation : Invocation}
    (h : readOuter progress rest = .ok invocation) : invocation.Within words := by
  induction rest generalizing progress with
  | nil =>
      rcases bind_eq_ok_iff.mp h with ⟨settled, -, hfault⟩
      cases hfault
  | cons word rest ih =>
      rw [List.cons_subset] at hrest
      unfold readOuter at h
      dsimp only at h
      split at h
      · cases h
      · split at h
        -- The word names the action, whose level starts with nothing taken.
        · rcases bind_eq_ok_iff.mp h with ⟨inner, hinner, hlevels⟩
          rcases bind_eq_ok_iff.mp hlevels with ⟨settled, hsettle, hinvocation⟩
          cases hinvocation
          exact Invocation.within_ofLevels (Progress.within_settle hprogress hsettle).given
            (within_readInner hrest.2 (Progress.within_start words) hinner)
        · rcases bind_eq_ok_iff.mp h with ⟨next, hword, hnext⟩
          exact ih hrest.2 (Progress.within_takeWord hprogress hrest.1 hword) hnext

theorem within_readArguments {arguments : List String} {invocation : Invocation}
    (h : readArguments arguments = .ok invocation) : invocation.Within arguments :=
  within_readOuter (List.Subset.refl arguments) (Progress.within_start arguments) h

end Command
end AccessRules
