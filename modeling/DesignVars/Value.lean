import DesignVars.Color.Space
import DesignVars.Declaration
import DesignVars.SortedMap

/-!
# Values of variables

A snapshot holds the concrete values of variables outside the stylesheet, by name. A variable is
found under its own name and under the name in its code syntax, so `var(--brand)` finds one that
is stored as `color/brand`.

* `Concrete`: a number or a color;
* `Value`: a concrete value, or an alias that stands for another variable;
* `Kind`: the type of a value;
* `Value.text`: a value as a stylesheet writes it;
* `Lookup`: the values of variables by name;
* `aliasOf?`, `nameInCode?`: the name in `var(--name)`, exactly or up to outer blanks;
* `Snapshot`, `Snapshot.insert`, `Snapshot.insertWithCode`, `Snapshot.get?`.
-/

namespace DesignVars

open Text

inductive Kind where
  | number
  | color
  | alias
deriving DecidableEq, Repr

/-- The name that design tools use for a type. -/
def Kind.name : Kind → String
  | .number => "FLOAT"
  | .color => "COLOR"
  | .alias => "ALIAS"

/-- Holds for the types of values that need no other variable. -/
def Kind.isConcrete (k : Kind) : Bool := k != .alias

/-- A value that needs no other variable. -/
inductive Concrete where
  | number (x : Float)
  | color (c : Rgba)
deriving BEq

def Concrete.kind : Concrete → Kind
  | .number _ => .number
  | .color _ => .color

def Concrete.number? : Concrete → Option Float
  | .number x => some x
  | .color _ => none

def Concrete.color? : Concrete → Option Rgba
  | .color c => some c
  | .number _ => none

/-- The type of a concrete value is concrete. -/
theorem Concrete.isConcrete_kind (c : Concrete) : c.kind.isConcrete = true := by cases c <;> rfl

inductive Value where
  | concrete (c : Concrete)
  /-- Stands for the variable of that name. -/
  | alias (target : String)
deriving BEq

def Value.kind : Value → Kind
  | .concrete c => c.kind
  | .alias _ => .alias

/-- The concrete value, if the value is no alias. -/
def Value.concrete? : Value → Option Concrete
  | .concrete c => some c
  | .alias _ => none

/-- The name that an alias stands for. -/
def Value.target? : Value → Option String
  | .alias t => some t
  | .concrete _ => none

/-- A reference to a variable, as stylesheets write it. -/
def reference (name : String) : String := "var(--" ++ name ++ ")"

/-- A value as a stylesheet writes it: a plain number, a color in hexadecimal, or a reference. -/
def Value.text : Value → String
  | .concrete (.number x) => Decimal.plain.write x
  | .concrete (.color c) => c.hex
  | .alias target => reference target

/-! ## Looking values up -/

/-- The concrete values of variables by name. -/
abbrev Lookup := String → Option Concrete

/-- The color of that name, if the variable is one. -/
def Lookup.color? (l : Lookup) (name : String) : Option Rgba := (l name).bind Concrete.color?

/-- The number of that name, if the variable is one. -/
def Lookup.number? (l : Lookup) (name : String) : Option Float := (l name).bind Concrete.number?

/-! ## References -/

/-- The name between `var(--` and a closing parenthesis at the end. -/
def referenceName? (cs : List Char) : Option String :=
  (['v', 'a', 'r', '(', '-', '-'].isPrefixOf? cs).bind fun rest =>
    let name := String.ofList rest.dropLast
    if rest.getLast? = some ')' && isValidName name then some name else none

/-- The variable that a text is a reference to, if it is nothing else. -/
def aliasOf? (text : String) : Option String := referenceName? text.toList

/-- The variable that a code syntax refers to; outer blanks do not count. -/
def nameInCode? (code : String) : Option String := referenceName? (trim code.toList)

/-! ## Snapshots -/

/-- Concrete values by name. -/
structure Snapshot where
  entries : SortedMap Concrete
deriving BEq

namespace Snapshot

def empty : Snapshot := ⟨.empty⟩

instance : Inhabited Snapshot := ⟨empty⟩

def get? (s : Snapshot) (name : String) : Option Concrete := s.entries.get? name

def lookup (s : Snapshot) : Lookup := s.get?

/-- The snapshot with one more value; an alias is not taken in. -/
def insert (s : Snapshot) (name : String) : Value → Snapshot
  | .concrete c => ⟨s.entries.insert name c⟩
  | .alias _ => s

/-- The snapshot with one more value, under its name and before that under the name in its code
syntax. -/
def insertWithCode (s : Snapshot) (name : String) (code : Option String) (v : Value) : Snapshot :=
  let s := match code.bind nameInCode? with
    | some flat => s.insert flat v
    | none => s
  s.insert name v

/-- The concrete ones among the values of a map. -/
def ofValues (values : SortedMap Value) : Snapshot :=
  ⟨values.filterMap fun _ v => v.concrete?⟩

end Snapshot

end DesignVars
