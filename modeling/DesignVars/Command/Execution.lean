import DesignVars.Command.Arguments
import DesignVars.Document
import DesignVars.Listing

/-!
# Executing a command

A command first reads all its files. Only an import that has got that far, and whose stylesheet
suits the store, writes, and it writes the store only.

* `Failure`: what went wrong with which file; `Failure.context`, `Failure.causes`: what the command
  was about to do, and why it could not; `Failure.text`: both as a user reads them;
* `Outcome`: the output or the failure, and the log;
* `Loading`: computations that read files and may fail;
* `preview`, `importInto`: the two commands;
* **`execute`**: an invocation, in any monad that gives access to files;
* `Transcript`, **`runProgram`**: a whole run of the program, from the arguments to the exit code.
-/

namespace DesignVars

/-! ## Failures -/

/-- What went wrong with which file. -/
inductive Failure where
  | stylesheetUnread (path : String) (e : FileError)
  | settingsUnread (path : String) (e : FileError)
  | settingsRefused (path : String) (format : SettingsFormat)
  | snapshotUnread (path : String) (e : FileError)
  | snapshotRefused (path : String)
  | storeUnread (path : String) (e : FileError)
  | storeRefused (path : String)
  /-- The stylesheet does not suit the store. -/
  | importRefused (path : String) (mismatch : TypeMismatch)
  | storeUnwritten (path : String) (e : FileError)
deriving DecidableEq, Repr

namespace Failure

/-- What the command was about to do. -/
def context : Failure → String
  | .stylesheetUnread path _ => s!"failed to read stylesheet {path}"
  | .settingsUnread path _ => s!"failed to load config {path}"
  | .settingsRefused path _ => s!"failed to load config {path}"
  | .snapshotUnread path _ => s!"failed to read snapshot {path}"
  | .snapshotRefused path => s!"invalid snapshot {path}"
  | .storeUnread path _ => s!"failed to load store {path}"
  | .storeRefused path => s!"failed to load store {path}"
  | .importRefused path _ => s!"failed to import {path}"
  | .storeUnwritten path _ => s!"failed to save store {path}"

/-- Why it could not, from the nearest cause to the last. -/
def causes : Failure → List String
  | .stylesheetUnread _ e => [e.message]
  | .settingsUnread path e => [s!"failed to read config {path}: {e.message}", e.message]
  | .settingsRefused _ .json => ["invalid JSON config"]
  | .settingsRefused _ .yaml => ["invalid YAML config"]
  | .snapshotUnread _ e => [e.message]
  | .snapshotRefused _ => ["invalid store document"]
  | .storeUnread path e => [s!"store I/O failed for {path}: {e.message}", e.message]
  | .storeRefused _ => ["invalid store document"]
  | .importRefused _ mismatch => [mismatch.message]
  | .storeUnwritten path e => [s!"store I/O failed for {path}: {e.message}", e.message]

/-- A text with something before its first line and as many blanks before the others. -/
def hang (before text : String) : String :=
  before ++ ("\n" ++ String.ofList (List.replicate before.length ' ')).intercalate
    (text.splitOn "\n")

/-- The causes, one after the other, with their numbers if there are several. -/
def causeLines : List String → List String
  | [] => []
  | [cause] => [hang "    " cause]
  | causes => causes.mapIdx fun i cause => hang s!"    {i}: " cause

/-- The failure as a user reads it. -/
def text (f : Failure) : String :=
  "Error: " ++ f.context ++ "\n\nCaused by:\n" ++ "\n".intercalate (causeLines f.causes) ++ "\n"

end Failure

/-! ## Outcomes -/

structure Outcome where
  log : List Record
  /-- What is written to the standard output, or what went wrong. -/
  result : Except Failure String

def commandSource : String := "varsmith_cli"

section

variable {m : Type → Type} [Monad m] [FileAccess m]

/-! ## Reading the files -/

/-- Computations that read files and may fail. -/
abbrev Loading (m : Type → Type) (α : Type) : Type := ExceptT Failure m α

def loadText (path : String) (failure : FileError → Failure) : Loading m String := do
  match ← FileAccess.read (m := m) path with
  | .ok text => return text
  | .error e => throw (failure e)

def loadDocument {α : Type} (path : String) (unread : FileError → Failure) (refused : Failure)
    (read? : String → Option α) : Loading m α := do
  match read? (← loadText path unread) with
  | some v => return v
  | none => throw refused

def loadStylesheet (path : String) : Loading m String := loadText path (.stylesheetUnread path)

/-- The settings in a file, or the default ones. -/
def loadSettings : Option String → Loading m Settings
  | none => return .default
  | some path =>
    let format := SettingsFormat.ofPath path
    loadDocument path (.settingsUnread path) (.settingsRefused path format)
      (Settings.ofText? format)

/-- The snapshot in a file, or an empty one. -/
def loadSnapshot : Option String → Loading m Snapshot
  | none => return .empty
  | some path => loadDocument path (.snapshotUnread path) (.snapshotRefused path) Snapshot.ofJson?

/-- The store in a file, or an empty one if there is no file. -/
def loadStore (path : String) : Loading m Store := do
  if ← FileAccess.contains (m := m) path then
    loadDocument path (.storeUnread path) (.storeRefused path) Store.ofDocument?
  else
    return {}

def loadPreview (stylesheet : String) (settings snapshot : Option String) :
    Loading m (String × Settings × Snapshot) := do
  return (← loadStylesheet stylesheet, ← loadSettings settings, ← loadSnapshot snapshot)

def loadImport (stylesheet store : String) (settings : Option String) :
    Loading m (String × Settings × Store) := do
  return (← loadStylesheet stylesheet, ← loadSettings settings, ← loadStore store)

/-! ## Commands -/

/-- Shows what an import would amount to. -/
def preview (color : Bool) (stylesheet : String) (settings snapshot : Option String)
    (format : OutputFormat) : m Outcome := do
  match ← (loadPreview stylesheet settings snapshot).run with
  | .error failure => return ⟨[], .error failure⟩
  | .ok (css, settings, snapshot) =>
    let report := readStylesheet css snapshot
    let entries := finalize settings report.vars
    let log := report.log ++ finalizeLog settings report.vars ++
      [.debug commandSource s!"previewing {entries.length} entries from {stylesheet}"]
    let output := match format with
      | .json => previewDocument entries report.unresolved report.skipped ++ "\n"
      | .text => previewText color entries report.unresolved report.skipped
    return ⟨log, .ok output⟩

/-- Settings with another collection, if one is given. -/
def Settings.intoCollection (settings : Settings) (collection : Option String) : Settings :=
  { settings with collection := collection.getD settings.collection }

/-- Imports a stylesheet into a store. -/
def importInto (color : Bool) (stylesheet store : String) (settings collection : Option String) :
    m Outcome := do
  match ← (loadImport stylesheet store settings).run with
  | .error failure => return ⟨[], .error failure⟩
  | .ok (css, settings, before) =>
    let settings := settings.intoCollection collection
    let done := runImport css settings before
    let log := done.log settings
    match done.result with
    | (.error mismatch, _) => return ⟨log, .error (.importRefused stylesheet mismatch)⟩
    | (.ok summary, after) =>
      match ← FileAccess.write (m := m) store after.document with
      | .error e => return ⟨log, .error (.storeUnwritten store e)⟩
      | .ok () => return ⟨log, .ok (importText color summary done.report.unresolved)⟩

/-- Executes an invocation. The output is colored if that is wanted and not switched off. -/
def execute (color : Bool) (i : Invocation) : m Outcome :=
  let color := color && !i.plain
  match i.command with
  | .preview stylesheet settings snapshot format =>
    preview color stylesheet settings snapshot format
  | .intoStore stylesheet store settings collection =>
    importInto color stylesheet store settings collection

/-! ## Whole runs -/

/-- What a run of the program leaves behind apart from files. -/
structure Transcript where
  exitCode : UInt32
  output : String
  errors : String

/-- The name of the program and its version. -/
def versionText : String := "varsmith 0.4.0\n"

def usageText : String :=
  "Turns stylesheet custom properties into typed design variables\n\n" ++
  "Usage: varsmith [OPTIONS] <COMMAND>\n\n" ++
  "Commands:\n" ++
  "  preview  Show the variables a stylesheet would produce\n" ++
  "  import   Import a stylesheet into a store file\n" ++
  "  help     Print this message or the help of the given subcommand(s)\n\n" ++
  "Options:\n" ++
  "  -v, --verbose   Enable verbose (debug) logging\n" ++
  "      --no-color  Disable colored output\n" ++
  "  -h, --help      Print help\n" ++
  "  -V, --version   Print version\n"

/-- Why arguments are refused, as a user reads it. -/
def UsageError.message : UsageError → String
  | .help | .version | .nothingGiven => ""
  | .subcommandMissing => "a subcommand is required"
  | .subcommandUnknown => "unrecognized subcommand"
  | .argumentMissing => "a required argument is missing"
  | .argumentUnknown => "unexpected argument"
  | .argumentRepeated => "an argument cannot be used multiple times"
  | .valueRefused => "a value is missing or invalid"
  | .valueUnwanted => "an argument takes no value"

/-- The run of a program whose arguments ask for no command. Only requests for help and for the
version succeed. -/
def UsageError.transcript (e : UsageError) : Transcript :=
  match e with
  | .help => ⟨0, usageText, ""⟩
  | .version => ⟨0, versionText, ""⟩
  | .nothingGiven => ⟨2, "", usageText⟩
  | e => ⟨2, "", "error: " ++ e.message ++ "\n\n" ++ usageText⟩

/-- The lines of the log: the warnings, or all records. -/
def logText (verbose : Bool) (log : List Record) : String :=
  unlines ((log.filter fun r => verbose || r.level == .warn).map Record.line)

def Outcome.transcript (verbose : Bool) (o : Outcome) : Transcript :=
  match o.result with
  | .ok output => ⟨0, output, logText verbose o.log⟩
  | .error failure => ⟨1, "", logText verbose o.log ++ failure.text⟩

/-- A whole run of the program. -/
def runProgram (color : Bool) (args : List String) : m Transcript :=
  match Invocation.ofArguments args with
  | .error e => return e.transcript
  | .ok i => return (← execute color i).transcript i.verbose

end

end DesignVars
