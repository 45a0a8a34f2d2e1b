/-!
# Arguments of the command line

`Invocation.parse` reads the arguments of a run. There are two levels of arguments: those before
the name of a command and those behind it. Options may stand on both if they are global; what is
said on the inner level wins. A variable of the environment stands in for an option that is missing
on a level.
-/

namespace StubManager

/-- Why arguments cannot be carried out: a request for help or the version, or a fault. -/
inductive UsageError where
  | help
  | version
  /-- Nothing was asked for. -/
  | nothing
  | invalidValue
  | unknownArgument
  | argumentConflict
  | missingCommand
  | missingArgument
  | unknownCommand
  | tooManyValues
deriving DecidableEq, Repr, Inhabited

/-- Requests are met, faults are not. -/
def UsageError.exitCode : UsageError → Nat
  | help | version => 0
  | _ => 2

/-- The shells that completions can be written for. -/
inductive CompletionShell where
  | bash
  | elvish
  | fish
  | powershell
  | zsh
deriving DecidableEq, Repr, Inhabited

namespace CompletionShell

/-- The word that names the shell on the command line. -/
def name : CompletionShell → String
  | bash => "bash"
  | elvish => "elvish"
  | fish => "fish"
  | powershell => "powershell"
  | zsh => "zsh"

/-- The shell of a name, in any letter case. -/
def ofName? (text : String) : Option CompletionShell :=
  [bash, elvish, fish, powershell, zsh].find? fun shell =>
    shell.name.toList == text.toList.map Char.toLower

end CompletionShell

/-- What a run is asked to do. -/
inductive Command where
  | create (port : String) (modules : List String) (script : Option String)
  | add (name : String) (force : Bool)
  | remove (name : String)
  | list (all : Bool)
  | completions (shell : CompletionShell)
deriving DecidableEq, Repr, Inhabited

/-- What a run is asked to do, and where. -/
structure Invocation where
  project : Option String := none
  verbose : Bool := false
  command : Command
deriving DecidableEq, Repr, Inhabited

namespace Arguments

/-! ## The grammar -/

/-- The levels of arguments: before the name of a command and behind it. -/
inductive Level where
  | outer
  | create
  | add
  | remove
  | list
  | completions
deriving DecidableEq, Repr, Inhabited

/-- What arguments set. -/
inductive Parameter where
  | project
  | verbose
  | help
  | version
  | force
  | all
  | module
  | script
  /-- The argument without a name. -/
  | subject
deriving DecidableEq, Repr, Inhabited

namespace Level

/-- The level behind the name of a command. -/
def ofName? (text : String) : Option Level :=
  [("create", create), ("add", add), ("remove", remove), ("list", list),
   ("completions", completions)].lookup text

/-- The options of a level: their letters, their words and what they set. -/
def options (level : Level) : List (Option Char × String × Parameter) :=
  [(some 'p', "project", .project), (some 'v', "verbose", .verbose), (some 'h', "help", .help)]
  ++ match level with
    | outer => [(some 'V', "version", .version)]
    | create => [(some 'm', "module", .module), (none, "script", .script)]
    | add => [(some 'f', "force", .force)]
    | list => [(some 'a', "all", .all)]
    | remove | completions => []

/-- Whether a level has an argument without a name, which must be there then. -/
def hasSubject : Level → Bool
  | create | add | remove | completions => true
  | outer | list => false

/-- What the option of a letter sets. -/
def ofLetter? (level : Level) (letter : Char) : Option Parameter :=
  (level.options.find? (·.1 = some letter)).map (·.2.2)

/-- What the option of a word sets. -/
def ofWord? (level : Level) (word : String) : Option Parameter :=
  (level.options.find? (·.2.1 = word)).map (·.2.2)

end Level

namespace Parameter

/-- Whether the parameter has a value and is not only set. -/
def takesValue : Parameter → Bool
  | project | module | script | subject => true
  | verbose | help | version | force | all => false

/-- The variable that stands in for a missing option. -/
def variableName? : Parameter → Option String
  | project => some "MPSTUBS_PROJECT"
  | script => some "MPSTUBS_CREATESTUBS"
  | _ => none

/-- Whether a value can be used. -/
def accepts (level : Level) (parameter : Parameter) (value : String) : Bool :=
  match parameter, level with
  | project, _ | script, _ => value ≠ ""
  | subject, .completions => (CompletionShell.ofName? value).isSome
  | _, _ => true

end Parameter

/-! ## Reading one level -/

/-- What the arguments of a level set so far. -/
structure Settled where
  /-- What is set, with its value, in the order of the arguments. -/
  values : List (Parameter × String) := []
  /-- Whether something comes from the environment, by parameter. -/
  borrowed : List Parameter := []
deriving Repr, Inhabited

namespace Settled

/-- Whether the parameter has been set. -/
def has (settled : Settled) (parameter : Parameter) : Bool :=
  settled.values.any (·.1 = parameter)

/-- Every value of a parameter, in the order given. -/
def all (settled : Settled) (parameter : Parameter) : List String :=
  (settled.values.filter (·.1 = parameter)).map (·.2)

/-- Sets a parameter. Only modules may be named repeatedly. -/
def set (level : Level) (settled : Settled) (parameter : Parameter) (value : String) :
    Except UsageError Settled :=
  match parameter with
  | .help => .error .help
  | .version => .error .version
  | _ =>
    if settled.has parameter ∧ parameter ≠ .module then .error .argumentConflict
    else if parameter.accepts level value then
      .ok { settled with values := settled.values ++ [(parameter, value)] }
    else .error .invalidValue

end Settled

/-- How far the arguments of a level are read. -/
structure Reading where
  settled : Settled := {}
  /-- What was named but is not set yet, with its value if that is there. -/
  pending : Option (Parameter × Option String) := none
  /-- Whether only arguments without names follow. -/
  literal : Bool := false
  /-- Whether the argument without a name was there. -/
  subjectSeen : Bool := false
deriving Repr, Inhabited

namespace Reading

/-- Sets what is pending. -/
def settle (level : Level) (r : Reading) : Except UsageError Reading :=
  match r.pending with
  | none => .ok r
  | some (_, none) => .error .invalidValue
  | some (parameter, some value) => do
    return { r with settled := ← r.settled.set level parameter value, pending := none }

/-- Sets a parameter after what is pending. -/
def set (level : Level) (r : Reading) (parameter : Parameter) (value : String) :
    Except UsageError Reading := do
  let r ← r.settle level
  return { r with settled := ← r.settled.set level parameter value }

/-- Names an option whose value is the next argument. -/
def await (level : Level) (r : Reading) (parameter : Parameter) : Except UsageError Reading := do
  return { ← r.settle level with pending := some (parameter, none) }

/-- Reads the letters behind a hyphen. An option with a value takes the letters that are left. -/
def letters (level : Level) (r : Reading) : List Char → Except UsageError Reading
  | [] => .ok r
  | letter :: rest =>
    match level.ofLetter? letter with
    | none => .error .unknownArgument
    | some parameter =>
      if parameter.takesValue then
        match rest with
        | [] => r.await level parameter
        | '=' :: value => r.set level parameter (String.ofList value)
        | value => r.set level parameter (String.ofList value)
      else do letters level (← r.set level parameter "true") rest

/-- Reads the word behind two hyphens, with a value behind an equals sign. -/
def word (level : Level) (r : Reading) (text : List Char) : Except UsageError Reading :=
  let name := text.takeWhile (· ≠ '=')
  match level.ofWord? (String.ofList name), text.drop name.length with
  | none, _ => .error .unknownArgument
  | some parameter, [] =>
    if parameter.takesValue then r.await level parameter else r.set level parameter "true"
  | some parameter, _ :: value =>
    if parameter.takesValue then r.set level parameter (String.ofList value)
    else .error .tooManyValues

/-- The fault of an argument that has no place on a level. -/
def misplaced (level : Level) (r : Reading) (argument : String) : UsageError :=
  if level ≠ .outer then .unknownArgument
  else if r.literal ∧ ((Level.ofName? argument).isSome ∨ argument = "help") then .unknownArgument
  else .unknownCommand

/-- Reads an argument without a name. -/
def subject (level : Level) (r : Reading) (argument : String) : Except UsageError Reading := do
  if !level.hasSubject || r.subjectSeen then throw (r.misplaced level argument)
  return { ← r.settle level with pending := some (.subject, some argument), subjectSeen := true }

/-- Whether the value of an option comes next. -/
def awaitsValue (r : Reading) : Bool := r.pending.any (·.2.isNone)

/-- Reads one argument that is not the name of a command. -/
def argument (level : Level) (r : Reading) (text : String) : Except UsageError Reading :=
  if r.literal then r.subject level text
  else
    match text.toList with
    | ['-', '-'] => .ok { r with literal := true }
    | '-' :: '-' :: name => r.word level name
    | '-' :: c :: more => r.letters level (c :: more)
    | _ =>
      match r.pending with
      | some (parameter, none) => .ok { r with pending := some (parameter, some text) }
      | _ => r.subject level text

/-- Sets what is pending and what only the environment sets. -/
def finish (level : Level) (environment : List (String × String)) (r : Reading) :
    Except UsageError Settled := do
  let r ← r.settle level
  let borrow (settled : Settled) (parameter : Parameter) : Except UsageError Settled :=
    match parameter.variableName?.bind (environment.lookup ·) with
    | some value =>
      if settled.has parameter then .ok settled
      else do
        let settled ← settled.set level parameter value
        return { settled with borrowed := parameter :: settled.borrowed }
    | none => .ok settled
  (level.options.map (·.2.2)).foldlM borrow r.settled

end Reading

/-! ## Reading a whole line -/

/-- Reads the arguments behind the name of a command. -/
def readInner (level : Level) (environment : List (String × String)) (arguments : List String) :
    Except UsageError Settled := do
  let settled ← (← arguments.foldlM (Reading.argument level) {}).finish level environment
  if level.hasSubject ∧ !settled.has .subject then throw .missingArgument
  return settled

/-- The fault, or the answer, of a request for help on commands. -/
def readHelp : List String → UsageError
  | [] => .help
  | [name] => if (Level.ofName? name).isSome ∨ name = "help" then .help else .unknownCommand
  | _ => .unknownCommand

/-- Reads the arguments before the name of a command, that name and the arguments behind it. -/
def readOuter (environment : List (String × String)) (r : Reading) :
    List String → Except UsageError (Settled × Option (Level × Settled))
  | [] => do return (← r.finish .outer environment, none)
  | argument :: rest =>
    if !r.literal ∧ !r.awaitsValue ∧ argument = "help" then .error (readHelp rest)
    else
      match (if r.literal || r.awaitsValue then none else Level.ofName? argument) with
      | some level => do
        let inner ← readInner level environment rest
        return (← r.finish .outer environment, some (level, inner))
      | none => do readOuter environment (← r.argument .outer argument) rest

/-- The value of a global option: what is said beats the environment, and the inner level beats the
outer one. -/
def globalValue? (parameter : Parameter) (outer inner : Settled) : Option String :=
  let said (settled : Settled) : Option String :=
    if settled.borrowed.contains parameter then none else (settled.all parameter).head?
  said inner <|> said outer <|> (inner.all parameter).head? <|> (outer.all parameter).head?

/-- The command that the arguments of a level amount to. -/
def command? (level : Level) (settled : Settled) : Option Command :=
  let subject := ((settled.all .subject).head?).getD ""
  match level with
  | .create => some (.create subject (settled.all .module) (settled.all .script).head?)
  | .add => some (.add subject (settled.has .force))
  | .remove => some (.remove subject)
  | .list => some (.list (settled.has .all))
  | .completions => (CompletionShell.ofName? subject).map .completions
  | .outer => none

end Arguments

open Arguments in
/-- Reads the arguments of a run. -/
def Invocation.parse (environment : List (String × String)) (arguments : List String) :
    Except UsageError Invocation := do
  let (outer, inner?) ← readOuter environment {} arguments
  match inner? with
  | none => throw (if outer.values.isEmpty then .nothing else .missingCommand)
  | some (level, inner) =>
    match command? level inner with
    | none => throw .invalidValue
    | some command => return {
        project := globalValue? .project outer inner
        verbose := outer.has .verbose || inner.has .verbose
        command }

end StubManager
