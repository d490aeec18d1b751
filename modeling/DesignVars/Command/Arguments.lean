/-!
# Arguments of the command line

* `preview <css> [-c <config>] [-s <snapshot>] [-f text|json]`
* `import <css> --store <file> [-c <config>] [--collection <name>]`

The switches `-v` and `--no-color` may stand before the command and anywhere behind it.

* `Invocation`, `Command`: what the arguments ask for;
* `UsageError`: why arguments are refused;
* `Given`, `Given.step`: the arguments so far, and one more;
* **`Invocation.ofArguments`**: the invocation that arguments are, if they are one.
-/

namespace DesignVars

/-! ## Invocations -/

inductive OutputFormat where
  | text
  | json
deriving DecidableEq, Repr

/-- What to do, with the paths of the files. -/
inductive Command where
  /-- Shows what an import would amount to. -/
  | preview (stylesheet : String) (settings snapshot : Option String) (format : OutputFormat)
  /-- Imports a stylesheet into a store. -/
  | intoStore (stylesheet store : String) (settings collection : Option String)
deriving DecidableEq, Repr

/-- A command and how to report on it. -/
structure Invocation where
  command : Command
  /-- Shows all of the log. -/
  verbose : Bool
  /-- Never colors the output. -/
  plain : Bool
deriving DecidableEq, Repr

/-- Why arguments do not ask for a command. -/
inductive UsageError where
  /-- They ask how the program is used. -/
  | help
  /-- They ask for its version. -/
  | version
  | nothingGiven
  | subcommandMissing
  | subcommandUnknown
  | argumentMissing
  | argumentUnknown
  | argumentRepeated
  /-- A value is missing or does not suit. -/
  | valueRefused
  | valueUnwanted
deriving DecidableEq, Repr

/-! ## Names -/

inductive Subcommand where
  | preview
  | intoStore
deriving DecidableEq, Repr

def Subcommand.ofName? : String → Option Subcommand
  | "preview" => some .preview
  | "import" => some .intoStore
  | _ => none

/-- Holds for what may stand in the place of a command. -/
def isSubcommandName (name : String) : Bool := name == "help" || (Subcommand.ofName? name).isSome

/-- The arguments without values. -/
inductive Switch where
  | verbose
  | plain
  | help
  | version
deriving DecidableEq, Repr

/-- The arguments with values. -/
inductive Parameter where
  | stylesheet
  | settings
  | snapshot
  | format
  | store
  | collection
deriving DecidableEq, Repr

/-- What a name in front of a value, or without one, stands for. -/
inductive Named where
  | switch (s : Switch)
  | parameter (p : Parameter)
deriving DecidableEq, Repr

/-- What a name behind two hyphens stands for, before a command or within one. -/
def longName? (within : Option Subcommand) (name : String) : Option Named :=
  match name, within with
  | "verbose", _ => some (.switch .verbose)
  | "no-color", _ => some (.switch .plain)
  | "help", _ => some (.switch .help)
  | "version", none => some (.switch .version)
  | "config", some _ => some (.parameter .settings)
  | "snapshot", some .preview => some (.parameter .snapshot)
  | "format", some .preview => some (.parameter .format)
  | "store", some .intoStore => some (.parameter .store)
  | "collection", some .intoStore => some (.parameter .collection)
  | _, _ => none

/-- What a letter behind one hyphen stands for, before a command or within one. -/
def shortName? (within : Option Subcommand) (letter : Char) : Option Named :=
  match letter, within with
  | 'v', _ => some (.switch .verbose)
  | 'h', _ => some (.switch .help)
  | 'V', none => some (.switch .version)
  | 'c', some _ => some (.parameter .settings)
  | 's', some .preview => some (.parameter .snapshot)
  | 'f', some .preview => some (.parameter .format)
  | _, _ => none

/-- Holds when a parameter may have a value: a path is not empty, and a format is known. -/
def Parameter.accepts (p : Parameter) (value : String) : Bool :=
  match p with
  | .format => value == "text" || value == "json"
  | .collection => true
  | _ => value != ""

/-! ## Reading arguments -/

structure Given where
  switches : List Switch := []
  values : List (Parameter × String) := []
  /-- The last parameter, which has not been checked, with its value if that has been read. -/
  pending : Option (Parameter × Option String) := none
  /-- Two hyphens have been read: no names follow. -/
  literal : Bool := false

namespace Given

def value? (g : Given) (p : Parameter) : Option String :=
  (g.values.find? fun v => v.1 == p).map (·.2)

/-- Takes a value in unless the parameter has one or the value does not suit. -/
def take (g : Given) (p : Parameter) (value : String) : Except UsageError Given :=
  if (g.value? p).isSome then .error .argumentRepeated
  else if p.accepts value then .ok { g with values := g.values ++ [(p, value)] }
  else .error .valueRefused

/-- Takes in what is pending. -/
def settle (g : Given) : Except UsageError Given :=
  match g.pending with
  | none => .ok g
  | some (_, none) => .error .valueRefused
  | some (p, some value) => { g with pending := none }.take p value

def turnOn (g : Given) (s : Switch) : Except UsageError Given := do
  let g ← g.settle
  match s with
  | .help => .error .help
  | .version => .error .version
  | s =>
    if g.switches.contains s then .error .argumentRepeated
    else .ok { g with switches := g.switches ++ [s] }

/-- A parameter with its value, or with the value in the next argument. -/
def assign (g : Given) (p : Parameter) : Option String → Except UsageError Given
  | some value => do (← g.settle).take p value
  | none => do return { ← g.settle with pending := some (p, none) }

/-- An argument with two hyphens in front. -/
def long (within : Option Subcommand) (g : Given) (name : String) (value : Option String) :
    Except UsageError Given :=
  match longName? within name, value with
  | some (.switch s), none => g.turnOn s
  | some (.switch _), some _ => .error .valueUnwanted
  | some (.parameter p), value => g.assign p value
  | none, _ => .error .argumentUnknown

/-- The letters of an argument with one hyphen in front. What follows a parameter is its value,
with or without an equals sign. -/
def short (within : Option Subcommand) (g : Given) : List Char → Except UsageError Given
  | [] => .ok g
  | c :: cs =>
    match shortName? within c with
    | some (.switch s) => do short within (← g.turnOn s) cs
    | some (.parameter p) =>
      match cs with
      | [] => g.assign p none
      | '=' :: value => g.assign p (some (String.ofList value))
      | value => g.assign p (some (String.ofList value))
    | none => .error .argumentUnknown

/-- An argument without a name. Before a command there is none. -/
def positional (within : Option Subcommand) (g : Given) (arg : String) :
    Except UsageError Given :=
  match within with
  | none =>
    if g.literal && isSubcommandName arg then .error .argumentUnknown
    else .error .subcommandUnknown
  | some _ =>
    if (g.value? .stylesheet).isSome || g.pending.any (·.1 == .stylesheet) then
      .error .argumentUnknown
    else do return { ← g.settle with pending := some (.stylesheet, some arg) }

/-- The text before the first equals sign, and the text after it. -/
def splitValue (cs : List Char) : String × Option String :=
  match cs.dropWhile (· != '=') with
  | _ :: value => (String.ofList (cs.takeWhile (· != '=')), some (String.ofList value))
  | [] => (String.ofList cs, none)

def step (within : Option Subcommand) (g : Given) (arg : String) : Except UsageError Given :=
  if g.literal then g.positional within arg
  else
    match arg.toList with
    | ['-', '-'] => .ok { g with literal := true }
    | '-' :: '-' :: cs => g.long within (splitValue cs).1 (splitValue cs).2
    | '-' :: c :: cs => g.short within (c :: cs)
    | _ =>
      match g.pending with
      | some (p, none) => .ok { g with pending := some (p, some arg) }
      | _ => g.positional within arg

/-- The value of a parameter that has to be given. -/
def required (g : Given) (p : Parameter) : Except UsageError String :=
  match g.value? p with
  | some value => .ok value
  | none => .error .argumentMissing

def command (g : Given) : Subcommand → Except UsageError Command
  | .preview => do
    return .preview (← g.required .stylesheet) (g.value? .settings) (g.value? .snapshot)
      (if g.value? .format = some "json" then .json else .text)
  | .intoStore => do
    return .intoStore (← g.required .stylesheet) (← g.required .store) (g.value? .settings)
      (g.value? .collection)

end Given

/-- The answer to a request for help on something. -/
def helpOn : List String → UsageError
  | [] => .help
  | [name] => if isSubcommandName name then .help else .subcommandUnknown
  | _ => .subcommandUnknown

/-- The invocation of a command, given the switches before it and the arguments behind it. -/
def Invocation.within (before : List Switch) (sub : Subcommand) (args : List String) :
    Except UsageError Invocation := do
  let g ← (← args.foldlM (Given.step (some sub)) {}).settle
  let on := before ++ g.switches
  return ⟨← g.command sub, on.contains .verbose, on.contains .plain⟩

/-- The invocation of a program with some arguments read before any command. -/
def Invocation.behind (g : Given) : List String → Except UsageError Invocation
  | [] => .error (if g.switches.isEmpty then .nothingGiven else .subcommandMissing)
  | arg :: args =>
    if g.literal then do behind (← g.step none arg) args
    else if arg = "help" then .error (helpOn args)
    else
      match Subcommand.ofName? arg with
      | some sub => within g.switches sub args
      | none => do behind (← g.step none arg) args

def Invocation.ofArguments (args : List String) : Except UsageError Invocation := behind {} args

end DesignVars
