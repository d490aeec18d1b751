import DesignVars.Classification
import DesignVars.Placement
import DesignVars.Resolution

/-!
# Reading a stylesheet

A computation that logs something has a list of records beside its result.

* `Level`, `Record`: how grave a record is, where it comes from and what it says;
* `Reading`, `Declaration.read`: what one declaration amounts to;
* `Pass`, `Pass.step`: the table and the notices after some declarations;
* `Report`: what a whole stylesheet amounts to;
* **`readStylesheet`**: every declaration is ignored, skipped, or taken into the table; then the
  aliases are settled.
-/

namespace DesignVars

/-! ## Records -/

/-- How grave a record is. -/
inductive Level where
  | debug
  | info
  | warn
deriving DecidableEq, Repr

/-- The name of a level, filled up to five characters. -/
def Level.padded : Level → String
  | .debug => "DEBUG"
  | .info => "INFO "
  | .warn => "WARN "

/-- One entry of the log. -/
structure Record where
  level : Level
  /-- The part of the program that it comes from. -/
  source : String
  message : String
deriving DecidableEq, Repr

namespace Record

/-- A record for those who look for a mistake. -/
def debug (source message : String) : Record := ⟨.debug, source, message⟩

/-- A record of what was done. -/
def info (source message : String) : Record := ⟨.info, source, message⟩

/-- A record of what the user may not have wanted. -/
def warn (source message : String) : Record := ⟨.warn, source, message⟩

def line (r : Record) : String :=
  s!"[{r.level.padded} {r.source}] {r.message}"

end Record

/-! ## Declarations -/

/-- What a declaration amounts to. -/
inductive Reading where
  /-- It stands in a block that names no mode. -/
  | ignored
  /-- No grammar accepts its value. -/
  | refused
  /-- It sets a base value. -/
  | base (c : Classified)
  /-- It sets the value of a mode. -/
  | modal (mode : String) (v : Value)

/-- What a declaration amounts to, given the values before it. -/
def Declaration.read (lookup : Lookup) (d : Declaration) : Reading :=
  match d.placement with
  | .malformed => .ignored
  | .topLevel => (classify lookup d.value).elim .refused .base
  | .mode m => (classifyMode d.value).elim .refused (.modal m)

/-- A declaration whose value no grammar accepts. -/
structure Skipped where
  name : String
  value : String
deriving DecidableEq, Repr

/-- A declaration that is not taken into the table. -/
inductive Notice where
  | ignored (name : String) (selector : String)
  | skipped (s : Skipped)
deriving DecidableEq, Repr

/-- The declaration, if its value was refused. -/
def Notice.skipped? : Notice → Option Skipped
  | .skipped s => some s
  | .ignored _ _ => none

/-! ## A pass -/

/-- What the declarations so far amount to. -/
structure Pass where
  table : Table := .empty
  notices : List Notice := []

/-- The table with what a declaration sets. -/
def Table.accept (t : Table) (d : Declaration) : Reading → Table
  | .base (.single v) => t.declare d.name v d.description
  | .base (.dual light dark) =>
    t.declareWithModes d.name light [(lightMode, light), (darkMode, dark)] d.description
  | .modal mode v => (t.setMode d.name mode v).describe d.name d.description
  | .ignored | .refused => t

/-- The notice of a declaration that sets nothing. -/
def Declaration.notice? (d : Declaration) : Reading → Option Notice
  | .ignored => some (.ignored d.name (d.selector.getD ""))
  | .refused => some (.skipped ⟨d.name, d.value⟩)
  | .base _ | .modal _ _ => none

def Pass.step (snapshot : Snapshot) (p : Pass) (d : Declaration) : Pass :=
  let r := d.read (p.table.lookup snapshot)
  ⟨p.table.accept d r, p.notices ++ (d.notice? r).toList⟩

/-- All declarations of a stylesheet. -/
def passOver (snapshot : Snapshot) (ds : List Declaration) : Pass :=
  ds.foldl (Pass.step snapshot) {}

/-! ## The report -/

/-- What a stylesheet amounts to: the declarations that were not taken in, and the table with its
aliases settled. -/
structure Report where
  notices : List Notice
  resolution : Resolution

/-- The variables in the order of their first mention. -/
def Report.vars (r : Report) : List Variable := r.resolution.table.vars

/-- The aliases that stand for nothing. -/
def Report.unresolved (r : Report) : List Alias := r.resolution.unresolved

/-- The declarations whose values were refused, in order. -/
def Report.skipped (r : Report) : List Skipped := r.notices.filterMap Notice.skipped?

/-- Reads a stylesheet. The values of the snapshot serve for what the stylesheet does not declare
itself. -/
def readStylesheet (css : String) (snapshot : Snapshot) : Report :=
  let p := passOver snapshot (scan css)
  ⟨p.notices, resolve p.table snapshot⟩

/-! ## Log -/

/-- Where the records on aliases come from. -/
def resolveSource : String := "varsmith::resolve"

/-- What is logged of a resolution. -/
def Resolution.log (r : Resolution) : List Record :=
  .debug resolveSource
      s!"alias resolution finished after {r.rounds} round(s), {r.unresolved.length} unresolved" ::
    r.unresolved.map fun a => .warn resolveSource s!"unresolved alias {a.text}"

/-- Where the records on an import come from. -/
def importSource : String := "varsmith::import"

/-- What is logged of a declaration that was not taken in. -/
def Notice.log : Notice → Record
  | .ignored name selector =>
    .debug importSource s!"ignoring --{name} in malformed mode block '{selector}'"
  | .skipped s => .debug importSource s!"skipping --{s.name}: unsupported value '{s.value}'"

/-- What is logged of a stylesheet. -/
def Report.log (r : Report) : List Record :=
  let parsed := r.vars.length
  let skipped := r.skipped.length
  let unresolved := r.unresolved.length
  r.notices.map Notice.log ++ r.resolution.log ++
    [.debug importSource
      s!"parsed {parsed} variable(s), {skipped} skipped, {unresolved} unresolved"]

end DesignVars
