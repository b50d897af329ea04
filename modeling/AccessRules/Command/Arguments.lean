import AccessRules.Command.Settings

/-!
# Command lines

A command line names an action. Words before the name belong to the outer level and words after
it to the level of the action. Both take options, and only an action takes operands.
-/

namespace AccessRules
namespace Command

inductive Action where
  | check
  | canonical
  | tree
deriving DecidableEq, Repr

def Action.all : List Action := [.check, .canonical, .tree]

def Action.name : Action -> String
  | check => "check"
  | canonical => "canonical"
  | tree => "tree"

def Action.ofName? (word : String) : Option Action :=
  Action.all.find? fun action => action.name = word

inductive UsageFault where
  | helpWanted
  | versionWanted
  | noArguments
  | missingAction
  | unknownAction
  | unknownOption
  | missingValue
  | surplusValue
  | repeatedOption
  | badSetting (fault : SettingFault)
deriving DecidableEq, Repr

/-!
## Options
-/

inductive Switch where
  | help
  | version
  | json
deriving DecidableEq, Repr

inductive ValueOption where
  | severity
  | limit
  | names
deriving DecidableEq, Repr

inductive CommandOption where
  | switch (switch : Switch)
  | valued (option : ValueOption)
deriving DecidableEq, Repr

inductive Level where
  | outer
  | inner (action : Action)
deriving DecidableEq, Repr

def Level.option? (level : Level) (name : String) : Option CommandOption :=
  match name, level with
  | "log-level", _ => some (.valued .severity)
  | "max-depth", _ => some (.valued .limit)
  | "help", _ => some (.switch .help)
  | "version", .outer => some (.switch .version)
  | "names", .inner .tree => some (.valued .names)
  | "json", .inner .tree => some (.switch .json)
  | _, _ => none

def Level.letter? (level : Level) (letter : Char) : Option Switch :=
  match letter, level with
  | 'h', _ => some .help
  | 'V', .outer => some .version
  | _, _ => none

structure Given where
  severity : Option Severity := none
  limit : Option Nat := none
  names : Option String := none
  json : Bool := false
  words : Array String := #[]

namespace Given

def isEmpty (given : Given) : Bool :=
  given.severity.isNone && given.limit.isNone && given.names.isNone && !given.json &&
    given.words.isEmpty

def has (given : Given) : ValueOption -> Bool
  | .severity => given.severity.isSome
  | .limit => given.limit.isSome
  | .names => given.names.isSome

def take (given : Given) (option : ValueOption) (value : String) :
    Except UsageFault Given :=
  if given.has option then .error .repeatedOption
  else
    match option with
    | .severity => do
        let severity ← (readSeverity value).mapError .badSetting
        return { given with severity }
    | .limit => do
        let limit ← (readLimit value).mapError .badSetting
        return { given with limit }
    | .names => if value.isEmpty then .error .missingValue else .ok { given with names := value }

end Given

/-!
## Reading a level word by word

The value of an option that stands in a word of its own is not looked at before the next option
or operand of the level arrives, or the level ends.
-/

structure Progress where
  given : Given := {}
  pending : Option (ValueOption × Option String) := none
  literal : Bool := false

namespace Progress

def settle (progress : Progress) : Except UsageFault Progress :=
  match progress.pending with
  | none => .ok progress
  | some (_, none) => .error .missingValue
  | some (option, some value) => do
      let given ← progress.given.take option value
      return { progress with given, pending := none }

def awaitsValue (progress : Progress) : Bool :=
  match progress.pending with
  | some (_, none) => true
  | _ => false

def takeSwitch (progress : Progress) (switch : Switch) : Except UsageFault Progress := do
  let progress ← progress.settle
  match switch with
  | .help => .error .helpWanted
  | .version => .error .versionWanted
  | .json =>
      if progress.given.json then .error .repeatedOption
      else .ok { progress with given.json := true }

def takeOption (progress : Progress) (option : CommandOption) (attached : Option String) :
    Except UsageFault Progress :=
  match option, attached with
  | .switch _, some _ => .error .surplusValue
  | .switch switch, none => progress.takeSwitch switch
  | .valued option, some value => do
      let progress ← progress.settle
      let given ← progress.given.take option value
      return { progress with given }
  | .valued option, none => do
      let progress ← progress.settle
      return { progress with pending := some (option, none) }

def takeOperand (level : Level) (progress : Progress) (word : String) :
    Except UsageFault Progress :=
  match level with
  | .inner _ => do
      let progress ← progress.settle
      return { progress with given.words := progress.given.words.push word }
  | .outer =>
      let isName := (Action.ofName? word).isSome || word = "help"
      .error (if progress.literal && isName then .unknownOption else .unknownAction)

end Progress

inductive Word where
  | endOfOptions
  | long (name : String) (attached : Option String)
  | letters (first : Char) (rest : List Char)
  | plain
deriving DecidableEq, Repr

def Word.ofText (text : String) : Word :=
  match text.toList with
  | ['-', '-'] => .endOfOptions
  | '-' :: '-' :: chars =>
      let name := String.ofList (chars.takeWhile (· ≠ '='))
      match chars.dropWhile (· ≠ '=') with
      | [] => .long name none
      | _ :: attached => .long name (some (String.ofList attached))
  | '-' :: letter :: rest => .letters letter rest
  | _ => .plain

namespace Progress

/-- Take one word of a level. The letters of a cluster all ask for something
that ends the reading, so the first one decides. -/
def takeWord (level : Level) (progress : Progress) (text : String) :
    Except UsageFault Progress :=
  if progress.literal then progress.takeOperand level text
  else
    match Word.ofText text with
    | .endOfOptions => .ok { progress with literal := true }
    | .long name attached =>
        match level.option? name with
        | some option => progress.takeOption option attached
        | none => .error .unknownOption
    | .letters letter _ =>
        match level.letter? letter with
        | some switch => progress.takeSwitch switch
        | none => .error .unknownOption
    | .plain =>
        match progress.pending with
        | some (option, none) => .ok { progress with pending := some (option, some text) }
        | _ => progress.takeOperand level text

end Progress

def readInner (action : Action) (progress : Progress) :
    List String -> Except UsageFault Given
  | [] => return (← progress.settle).given
  | word :: rest => do
      let progress ← progress.takeWord (.inner action) word
      readInner action progress rest

/-!
## Whole command lines
-/

structure Invocation where
  action : Action
  severity : Option Severity
  limit : Option Nat
  names : Option String
  json : Bool
  words : List String
deriving DecidableEq, Repr

/-- Options of the action go before those of the outer level. -/
def Invocation.ofLevels (action : Action) (outer inner : Given) : Invocation where
  action := action
  severity := inner.severity.or outer.severity
  limit := inner.limit.or outer.limit
  names := inner.names
  json := inner.json
  words := inner.words.toList

def helpOn : List String -> UsageFault
  | [] => .helpWanted
  | [topic] =>
      if (Action.ofName? topic).isSome || topic = "help" then .helpWanted else .unknownAction
  | _ => .unknownAction

/-- Read the words of the outer level up to the name of an action, and then
those of the action. A fault of the action comes before a value of the outer
level that is still pending. -/
def readOuter (progress : Progress) : List String -> Except UsageFault Invocation
  | [] => do
      let given := (← progress.settle).given
      .error (if given.isEmpty then .noArguments else .missingAction)
  | word :: rest =>
      let mayName := !progress.literal && !progress.awaitsValue
      if mayName && word = "help" then .error (helpOn rest)
      else
        match if mayName then Action.ofName? word else none with
        | some action => do
            let inner ← readInner action {} rest
            let outer := (← progress.settle).given
            return .ofLevels action outer inner
        | none => do
            let progress ← progress.takeWord .outer word
            readOuter progress rest

def readArguments (arguments : List String) : Except UsageFault Invocation :=
  readOuter {} arguments

end Command
end AccessRules
