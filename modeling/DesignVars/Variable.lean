import DesignVars.Value

/-!
# Variables of one pass over a stylesheet

* `Slot`: a place for a value, and the alias it came from;
* `Variable`: a name with a base slot and a slot for each of its modes;
* `Table`: the variables in the order of their first mention, with an index of their names that
  every operation keeps in step; `declare`, `declareWithModes` and `setMode`;
* **`Table.lookup`**: the values of the declared variables along their aliases, then those of a
  snapshot.
-/

namespace DesignVars

/-! ## Slots -/

/-- A place for a value. Once an alias is settled, the slot holds the value found and still names
the alias. -/
structure Slot where
  value : Value
  aliasOf : Option String := none
deriving BEq

namespace Slot

/-- Still waits for what its alias stands for. -/
def isPending (s : Slot) : Bool := s.value.target?.isSome

/-- The concrete value, if the slot is not waiting. -/
def concrete? (s : Slot) : Option Concrete := s.value.concrete?

/-- The slot with the value that `target` stands for. -/
def settle (target : String) (v : Value) : Slot := ⟨v, some target⟩

end Slot

/-! ## Variables -/

structure Variable where
  name : String
  /-- The value without a mode. A variable that only has modes holds no color here. -/
  base : Slot
  modes : SortedMap Slot := .empty
  description : Option String := none
  /-- Has a value outside of modes. -/
  declared : Bool := true
  /-- The modes that came with the value outside of modes, and go with it. -/
  inlineModes : List String := []
deriving BEq

namespace Variable

def kind (v : Variable) : Kind := v.base.value.kind

/-- The slot of a mode: its own if there is one, and the base slot if not. -/
def slotFor (v : Variable) (mode : String) : Slot := (v.modes.get? mode).getD v.base

/-- A variable with a base value. -/
def ofValue (name : String) (value : Value) (description : Option String) : Variable :=
  { name, base := { value }, description }

/-- A variable without a base value. -/
def ofMode (name : String) : Variable :=
  { name, base := { value := .concrete (.color .zero) }, declared := false }

/-- A new base value: modes that came with the former one go, a description stays unless there is
a new one. -/
def redeclare (v : Variable) (value : Value) (description : Option String) : Variable :=
  { v with
    base := { value }
    modes := v.inlineModes.foldl SortedMap.erase v.modes
    description := description.or v.description
    declared := true
    inlineModes := [] }

/-- A new value for a mode. -/
def setMode (v : Variable) (mode : String) (value : Value) : Variable :=
  { v with
    modes := v.modes.insert mode { value }
    inlineModes := v.inlineModes.filter (· != mode) }

/-- A new value for a mode that belongs to the base value. -/
def addInlineMode (v : Variable) (mode : String) (value : Value) : Variable :=
  { v with
    modes := v.modes.insert mode { value }
    inlineModes := mode :: v.inlineModes }

/-- A description, unless there is one. -/
def describe (v : Variable) (description : Option String) : Variable :=
  { v with description := v.description.or description }

/-- The slot for a mode or for the base value, if there is one. -/
def slot? (v : Variable) : Option String → Option Slot
  | none => some v.base
  | some mode => v.modes.get? mode

/-- The variable with another slot for a mode it has, or for its base value. -/
def setSlot (v : Variable) (s : Slot) : Option String → Variable
  | none => { v with base := s }
  | some mode => if v.modes.contains mode then { v with modes := v.modes.insert mode s } else v

theorem name_ofValue (name : String) (value : Value) (description : Option String) :
    (ofValue name value description).name = name := rfl

theorem name_setMode_ofMode (name mode : String) (value : Value) :
    ((ofMode name).setMode mode value).name = name := rfl

theorem name_redeclare (v : Variable) (value : Value) (description : Option String) :
    (v.redeclare value description).name = v.name := rfl

theorem name_setMode (v : Variable) (mode : String) (value : Value) :
    (v.setMode mode value).name = v.name := rfl

theorem name_describe (v : Variable) (description : Option String) :
    (v.describe description).name = v.name := rfl

@[simp] theorem name_setSlot (v : Variable) (s : Slot) (mode : Option String) :
    (v.setSlot s mode).name = v.name := by
  cases mode with
  | none => rfl
  | some m =>
    simp only [setSlot]
    split <;> rfl

@[simp] theorem name_foldl_addInlineMode (modes : List (String × Value)) (v : Variable) :
    (modes.foldl (fun v m => v.addInlineMode m.1 m.2) v).name = v.name := by
  induction modes generalizing v with
  | nil => rfl
  | cons m ms ih => rw [List.foldl_cons, ih]; rfl

end Variable

/-! ## Tables -/

/-- Variables in the order in which they were first mentioned, with the place of each name. -/
structure Table where
  vars : List Variable
  /-- Where in the list the variable of a name is. -/
  index : SortedMap Nat
  /-- The index and the list are in step: a name has a place exactly if the variable there has that
  name. -/
  agrees : ∀ name i, index.get? name = some i ↔ vars[i]?.map Variable.name = some name

namespace Table

def empty : Table := ⟨[], .empty, fun _ _ => by simp⟩

instance : Inhabited Table := ⟨empty⟩

def size (t : Table) : Nat := t.vars.length

/-- The variable at the place of a name. -/
def get? (t : Table) (name : String) : Option Variable :=
  (t.index.get? name).bind fun i => t.vars[i]?

theorem agrees_push {t : Table} {v : Variable} (hv : t.index.get? v.name = none) (name : String)
    (i : Nat) : (t.index.insert v.name t.vars.length).get? name = some i ↔
      (t.vars ++ [v])[i]?.map Variable.name = some name := by
  have hlast : (t.vars ++ [v])[t.vars.length]? = some v := List.getElem?_concat_length
  rw [SortedMap.get?_insert]
  -- before the end both sides are as they were, at the end both say `v`, behind it neither holds
  rcases Nat.lt_trichotomy i t.vars.length with hi | rfl | hi
  · rw [List.getElem?_append_left hi, ← t.agrees]
    split
    · rename_i hn
      simp [← hn, hv, Nat.ne_of_gt hi]
    · rfl
  · have hnone : t.index.get? name ≠ some t.vars.length := by simp [t.agrees]
    rw [hlast, Option.map_some, Option.some.injEq]
    split <;> simp_all
  · have hnone : t.index.get? name ≠ some i := by
      simp [t.agrees, List.getElem?_eq_none (Nat.le_of_lt hi)]
    have hend : (t.vars ++ [v])[i]? = none :=
      List.getElem?_eq_none (by rw [List.length_append]; exact hi)
    rw [hend]
    split <;> simp_all [Nat.ne_of_lt hi]

/-- The table with a variable of a new name at the end. -/
def push (t : Table) (v : Variable) (hv : t.index.get? v.name = none) : Table :=
  ⟨t.vars ++ [v], t.index.insert v.name t.vars.length, agrees_push hv⟩

/-- Changes the variable at a place, which keeps its name. -/
def modifyAt (t : Table) (i : Nat) (f : Variable → Variable) (hf : ∀ v, (f v).name = v.name) :
    Table where
  vars := t.vars.modify i f
  index := t.index
  agrees name j := by
    rw [t.agrees, List.getElem?_modify]
    cases t.vars[j]? with
    | none => rfl
    | some v =>
      simp only [Option.map_eq_map, Option.map_some]
      split
      · rw [hf]
      · rfl

/-- Changes the variable of that name, if there is one. -/
def modify (t : Table) (name : String) (f : Variable → Variable)
    (hf : ∀ v, (f v).name = v.name) : Table :=
  match t.index.get? name with
  | some i => t.modifyAt i f hf
  | none => t

/-- Changes the variable of that name, or adds one at the end. -/
def upsert (t : Table) (name : String) (f : Variable → Variable) (new : Variable)
    (hf : ∀ v, (f v).name = v.name) (hnew : new.name = name) : Table :=
  match h : t.index.get? name with
  | some i => t.modifyAt i f hf
  | none => t.push new (hnew ▸ h)

def declare (t : Table) (name : String) (value : Value) (description : Option String) : Table :=
  t.upsert name (fun v => v.redeclare value description) (.ofValue name value description)
    (Variable.name_redeclare · value description) (Variable.name_ofValue name value description)

/-- Gives a variable a base value that brings its own values for modes. -/
def declareWithModes (t : Table) (name : String) (value : Value) (modes : List (String × Value))
    (description : Option String) : Table :=
  (t.declare name value description).modify name
    (fun v => modes.foldl (fun v m => v.addInlineMode m.1 m.2) v)
    (Variable.name_foldl_addInlineMode modes)

/-- Gives a variable a value for a mode. -/
def setMode (t : Table) (name mode : String) (value : Value) : Table :=
  t.upsert name (fun v => v.setMode mode value) ((Variable.ofMode name).setMode mode value)
    (Variable.name_setMode · mode value) (Variable.name_setMode_ofMode name mode value)

/-- Gives a variable a description unless it has one. -/
def describe (t : Table) (name : String) (description : Option String) : Table :=
  t.modify name (fun v => v.describe description) (Variable.name_describe · description)

/-- The variable of that name, if it has a base value. -/
def declared? (t : Table) (name : String) : Option Variable :=
  (t.get? name).filter fun v => v.declared

/-! ## Looking values up -/

/-- The value of a variable after at most `hops` aliases. What the table does not declare is
looked up in the snapshot. -/
def follow (t : Table) (snapshot : Snapshot) : Nat → String → Option Concrete
  | 0, _ => none
  | hops + 1, name =>
    match t.declared? name with
    | some v =>
      match v.base.value with
      | .concrete c => some c
      | .alias target => t.follow snapshot hops target
    | none => snapshot.get? name

/-- The values of the declared variables along their aliases, then those of the snapshot. One hop
for each variable is enough, and a cycle ends without a value. -/
def lookup (t : Table) (snapshot : Snapshot) : Lookup := t.follow snapshot (t.size + 1)

end Table

end DesignVars
