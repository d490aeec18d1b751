import DesignVars.Variable

/-!
# Settling aliases

Slots that wait for another variable are settled in rounds. In a round every waiting slot takes the
value of its target, if the target has one by then.

* `Alias`: a waiting slot; `Table.aliases`: all of them, in the order of the table;
* `Table.targetValue?`: the value that an alias stands for, in its own mode if the target has it;
* `round`, `rounds`: one round, and rounds until nothing waits or nothing changes;
* **`resolve`**: the table with all aliases settled that can be, and those that cannot.
-/

namespace DesignVars

/-! ## Aliases -/

/-- A slot that waits for the value of another variable. -/
structure Alias where
  /-- The variable with the slot. -/
  name : String
  /-- The variable that it waits for. -/
  target : String
  /-- The mode of the slot, or nothing for the base slot. -/
  mode : Option String
deriving DecidableEq, Repr

/-- The slot and what it waits for, as a user reads it. -/
def Alias.text (a : Alias) : String :=
  match a.mode with
  | some mode => s!"--{a.name} [{mode}] -> --{a.target}"
  | none => s!"--{a.name} -> --{a.target}"

/-- The alias of a slot that waits. -/
def Slot.alias? (s : Slot) (name : String) (mode : Option String) : Option Alias :=
  s.value.target?.map fun target => ⟨name, target, mode⟩

/-- The waiting slots of a variable: the base slot, then those of the modes. -/
def Variable.aliases (v : Variable) : List Alias :=
  (v.base.alias? v.name none).toList ++
    v.modes.entries.filterMap fun m => m.2.alias? v.name (some m.1)

/-- All waiting slots. -/
def Table.aliases (t : Table) : List Alias := t.vars.flatMap Variable.aliases

/-! ## Targets -/

/-- The slot of a target that an alias of some mode takes its value from. A target without a base
value only serves its own modes. -/
def Variable.targetSlot? (v : Variable) : Option String → Option Slot
  | some mode => if v.declared then some (v.slotFor mode) else v.modes.get? mode
  | none => if v.declared then some v.base else none

/-- The value that an alias stands for: that of its target in the table, and for lack of such a
variable that of the snapshot. -/
def Table.targetValue? (t : Table) (snapshot : Snapshot) (a : Alias) : Option Concrete :=
  match t.get? a.target with
  | some v => (v.targetSlot? a.mode).bind Slot.concrete?
  | none => snapshot.get? a.target

/-- The table with the slot of an alias settled. -/
def Table.settle (t : Table) (a : Alias) (c : Concrete) : Table :=
  t.modify a.name (fun v => v.setSlot (.settle a.target (.concrete c)) a.mode) fun v =>
    v.name_setSlot _ _

/-! ## Rounds -/

/-- Settles the aliases one after the other; those without a value stay. -/
def round (snapshot : Snapshot) (t : Table) : List Alias → Table × List Alias
  | [] => (t, [])
  | a :: as =>
    match t.targetValue? snapshot a with
    | some c => round snapshot (t.settle a c) as
    | none =>
      let (t', left) := round snapshot t as
      (t', a :: left)

/-- A table with the aliases that are left, and how many rounds it took. -/
structure Resolution where
  table : Table
  unresolved : List Alias
  rounds : Nat

/-- At most `n` rounds, until no alias is left or none could be settled. -/
def rounds (snapshot : Snapshot) : Nat → Table → List Alias → Resolution
  | 0, t, as => ⟨t, as, 0⟩
  | n + 1, t, as =>
    if as.isEmpty then ⟨t, as, 0⟩
    else
      let (t', left) := round snapshot t as
      if left.length = as.length then ⟨t', left, 1⟩
      else
        let r := rounds snapshot n t' left
        { r with rounds := r.rounds + 1 }

/-- Settles all aliases that have a value in the end. Each round but the last settles one, so there
are no more rounds than aliases. -/
def resolve (t : Table) (snapshot : Snapshot) : Resolution :=
  rounds snapshot t.aliases.length t t.aliases

end DesignVars
