import DesignVars.Report
import DesignVars.Scope

/-!
# Entries for a store

* `Entry`: a variable of one type whose aliases are settled;
* `Variable.finalized?`, **`finalize`**: the entries of a report. Variables that still wait for a
  value give none, and mode values of another type are dropped;
* `finalizeLog`: the values and scopes that were dropped;
* `declarationText`, `blockText`: a declaration as a stylesheet writes it, and a block of them;
* **`renderStylesheet`**: entries as a stylesheet. The base values stand under `:root`, and the
  values of each mode in a block of their own, whose selector names the mode.
-/

namespace DesignVars

/-- A variable as a store takes it. -/
structure Entry where
  name : String
  path : String
  kind : Kind
  value : Slot
  modes : SortedMap Slot
  description : Option String
  scopes : List Scope
deriving BEq

/-- The reference to an entry, which a store keeps as its code syntax. -/
def Entry.codeSyntax (e : Entry) : String := reference e.name

/-! ## From variables to entries -/

/-- The type of a slot that does not wait. -/
def Slot.kind? (s : Slot) : Option Kind := s.concrete?.map Concrete.kind

/-- The type of a variable: that of its base value, or that of its first settled mode if it has no
base value. -/
def Variable.kind? (v : Variable) : Option Kind :=
  if v.declared then v.base.kind? else v.modes.values.findSome? Slot.kind?

/-- Nothing, as a value of some type. -/
def fallback : Kind → Concrete
  | .number => .number 0.0
  | _ => .color .zero

/-- The base slot of an entry. -/
def Variable.finalBase (v : Variable) (kind : Kind) : Slot :=
  if v.declared then v.base else { value := .concrete (fallback kind) }

/-- The mode slots that are of a given type. -/
def Variable.modesOf (v : Variable) (kind : Kind) : SortedMap Slot :=
  v.modes.filterMap fun _ s => if s.kind? = some kind then some s else none

def Variable.finalized? (settings : Settings) (v : Variable) : Option Entry :=
  v.kind?.map fun kind => {
    name := v.name
    path := pathOfName v.name
    kind
    value := v.finalBase kind
    modes := v.modesOf kind
    description := v.description
    scopes := scopesFor settings v.name kind }

/-- The entries of the variables, in their order. -/
def finalize (settings : Settings) (vars : List Variable) : List Entry :=
  vars.filterMap (Variable.finalized? settings)

/-! ## Log -/

/-- Where the records on scopes come from. -/
def scopeSource : String := "varsmith::scope"

/-- What is logged of the mode values that are not of a given type. -/
def Variable.droppedLog (v : Variable) (kind : Kind) : List Record :=
  v.modes.entries.filterMap fun (mode, s) =>
    (s.kind?.filter fun k => k != kind).map fun k => .warn importSource
      s!"dropping {k.name} value of --{v.name} in mode '{mode}': variable is {kind.name}"

/-- What is logged of the listed scopes that do not suit a variable. -/
def refusedLog (settings : Settings) (name : String) (kind : Kind) : List Record :=
  (refusedScopes settings name kind).map fun s => .warn scopeSource
    s!"scope {s.name} does not apply to {kind.name} variable '{name}', dropped"

/-- What is logged when variables become entries. -/
def finalizeLog (settings : Settings) (vars : List Variable) : List Record :=
  vars.flatMap fun v => match v.kind? with
    | some kind => v.droppedLog kind ++ refusedLog settings v.name kind
    | none => []

/-! ## Entries as a stylesheet -/

/-- A declaration on a line of its own. -/
def declarationText (name : String) (v : Value) : String := s!"  --{name}: {v.text};\n"

def blockText (selector : String) (values : List (String × Value)) : String :=
  selector ++ " \x7b\n" ++ String.join (values.map fun v => declarationText v.1 v.2) ++ "\x7d\n"

/-- All modes of the entries, ascending. -/
def modeNames (entries : List Entry) : List String :=
  (SortedMap.ofList (entries.flatMap fun e => e.modes.keys.map fun m => (m, ()))).keys

/-- The values of the entries for a mode, in the order of the entries. -/
def valuesOfMode (entries : List Entry) (mode : String) : List (String × Value) :=
  entries.filterMap fun e => (e.modes.get? mode).map fun s => (e.name, s.value)

def modeSelector (mode : String) : String := s!"[data-mode=\"{mode}\"]"

def renderStylesheet (entries : List Entry) : String :=
  blockText ":root" (entries.map fun e => (e.name, e.value.value)) ++
    String.join ((modeNames entries).map fun m =>
      "\n" ++ blockText (modeSelector m) (valuesOfMode entries m))

end DesignVars
