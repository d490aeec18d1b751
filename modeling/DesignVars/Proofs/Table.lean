import DesignVars.Variable
import Mathlib.Data.List.Nodup

/-!
# Tables after any operations

* `TableOp`, `Table.run`: the operations on a table, and the table that a list of them makes out of
  an empty one;
* `Table.Distinct`, **`Table.distinct`**: the index keeps a table from holding two variables of one
  name; `Table.get?_eq_find?`: what is found by the index is what a search of the list finds;
* `Place`, `Table.slot?`: a slot by the name of its variable and its mode;
* `Variable.outline`: a variable without what is in its slots;
* `mem_vars_modify`, `mem_vars_upsert`: a variable of a changed table is as it was and of another
  name, or the changed one, or the new one;
* `get?_modify`, `slot?_setSlot`: what is found after a change;
* **`Table.Slots.run`**: what holds of every value that operations put in a slot holds of all slots
  of the table that they make.
-/

namespace DesignVars

/-! ## Slots of a variable -/

/-- A variable without what is in its slots. -/
structure Outline where
  name : String
  description : Option String
  declared : Bool
  inlineModes : List String
  modes : List String
deriving DecidableEq, Repr

namespace Variable

/-- A variable without what is in its slots. -/
def outline (v : Variable) : Outline where
  name := v.name
  description := v.description
  declared := v.declared
  inlineModes := v.inlineModes
  modes := v.modes.keys

theorem setSlot_mode (v : Variable) (s : Slot) (mode : String) : v.setSlot s (some mode) =
    if v.modes.contains mode then { v with modes := v.modes.insert mode s } else v := rfl

theorem outline_setSlot (v : Variable) (s : Slot) (mode : Option String) :
    (v.setSlot s mode).outline = v.outline := by
  cases mode with
  | none => rfl
  | some m =>
    rw [setSlot_mode]
    split_ifs with h
    · simp only [outline, SortedMap.keys_insert_of_contains s h]
    · rfl

theorem slot?_setSlot (v : Variable) (s : Slot) (mode mode' : Option String) :
    (v.setSlot s mode).slot? mode' =
      if mode = mode' then (v.slot? mode').map fun _ => s else v.slot? mode' := by
  cases mode with
  | none => cases mode' <;> rfl
  | some m =>
    rw [setSlot_mode]
    cases mode' with
    | none => split_ifs <;> simp_all [slot?]
    | some m' =>
      by_cases h : m = m'
      · subst h
        by_cases hm : v.modes.contains m
        · obtain ⟨t, ht⟩ := Option.isSome_iff_exists.1 hm
          simp [slot?, hm, ht]
        · have : v.modes.get? m = none := by
            rwa [SortedMap.contains, Option.not_isSome_iff_eq_none] at hm
          simp [slot?, hm, this]
      · split_ifs with hm he he
        · exact absurd (Option.some.inj he) h
        · simp [slot?, SortedMap.get?_insert, h]
        · exact absurd (Option.some.inj he) h
        · rfl

end Variable

/-- A slot of a table: that of a mode of a variable, or that of its base value. -/
structure Place where
  name : String
  mode : Option String
deriving DecidableEq, Repr

namespace Table

/-! ## Names -/

/-- The names of the variables, in order. -/
def names (t : Table) : List String := t.vars.map Variable.name

/-- No two variables have one name. -/
def Distinct (t : Table) : Prop := t.names.Nodup

theorem index_eq_some_iff {t : Table} {name : String} {i : Nat} :
    t.index.get? name = some i ↔ t.names[i]? = some name := by
  rw [t.agrees, names, List.getElem?_map]

/-- **A table has no two variables of one name**, since a name has one place in the index. -/
theorem distinct (t : Table) : t.Distinct := by
  refine List.nodup_iff_getElem?_ne_getElem?.2 fun i j hij hj heq => ?_
  have hname := List.getElem?_eq_getElem hj
  have := (index_eq_some_iff.2 (heq.trans hname)).symm.trans (index_eq_some_iff.2 hname)
  exact Nat.ne_of_lt hij (Option.some.inj this)

theorem get?_eq_some_iff {t : Table} {name : String} {v : Variable} :
    t.get? name = some v ↔ v ∈ t.vars ∧ v.name = name := by
  rw [get?, Option.bind_eq_some_iff, List.mem_iff_getElem?]
  constructor
  · rintro ⟨i, hi, hv⟩
    rw [t.agrees, hv] at hi
    exact ⟨⟨i, hv⟩, Option.some.inj hi⟩
  · rintro ⟨⟨i, hv⟩, rfl⟩
    exact ⟨i, (t.agrees _ _).2 (congrArg _ hv), hv⟩

/-- The variable at the place of a name is the one that a search finds. -/
theorem get?_eq_find? (t : Table) (name : String) :
    t.get? name = t.vars.find? fun v => v.name == name := by
  cases h : t.vars.find? fun v => v.name == name with
  | none =>
    rw [Option.eq_none_iff_forall_ne_some]
    intro v hv
    have hmem := get?_eq_some_iff.1 hv
    exact List.find?_eq_none.1 h v hmem.1 (beq_iff_eq.2 hmem.2)
  | some v =>
    exact get?_eq_some_iff.2 ⟨List.mem_of_find?_eq_some h, by simpa using List.find?_some h⟩

theorem name_of_get? {t : Table} {name : String} {v : Variable} (h : t.get? name = some v) :
    v.name = name := (get?_eq_some_iff.1 h).2

theorem mem_of_get? {t : Table} {name : String} {v : Variable} (h : t.get? name = some v) :
    v ∈ t.vars := (get?_eq_some_iff.1 h).1

theorem get?_eq_none_iff {t : Table} {name : String} : t.get? name = none ↔ name ∉ t.names := by
  simp only [get?_eq_find?, List.find?_eq_none, beq_iff_eq, names, List.mem_map, not_exists,
    not_and]

theorem get?_of_mem {t : Table} {v : Variable} (hv : v ∈ t.vars) : t.get? v.name = some v :=
  get?_eq_some_iff.2 ⟨hv, rfl⟩

theorem index_eq_none_iff {t : Table} {name : String} :
    t.index.get? name = none ↔ name ∉ t.names := by
  rw [List.mem_iff_getElem?, not_exists, Option.eq_none_iff_forall_ne_some]
  exact forall_congr' fun i => not_congr index_eq_some_iff

theorem ext_vars {t t' : Table} (h : t.vars = t'.vars) : t = t' := by
  have : t.index = t'.index := SortedMap.ext_get? fun name => Option.ext fun i => by
    rw [t.agrees, t'.agrees, h]
  cases t
  cases t'
  simp_all

/-! ## Changes -/

section Modify

variable (t : Table) (name : String) {f : Variable → Variable} (hf : ∀ v, (f v).name = v.name)

/-- The variable at the place of a name is the only one of that name. -/
theorem vars_modify :
    (t.modify name f hf).vars = t.vars.map fun v => if v.name = name then f v else v := by
  refine List.ext_getElem? fun j => ?_
  -- the list is changed at the place in the index, the map wherever the name is the one in question
  have hplace : ∀ v, t.vars[j]? = some v → (t.index.get? name = some j ↔ v.name = name) :=
    fun v hv => by rw [t.agrees, hv, Option.map_some, Option.some.injEq]
  unfold modify
  rw [List.getElem?_map]
  cases hv : t.vars[j]? with
  | none => split <;> simp [modifyAt, List.getElem?_modify, hv]
  | some v =>
    rw [Option.map_some, ← if_congr (hplace v hv) rfl rfl]
    split
    · rename_i i hi
      simp only [modifyAt, List.getElem?_modify, hv, hi, Option.some.injEq]
      rfl
    · rename_i hn
      simp [hn, hv]

theorem names_modify : (t.modify name f hf).names = t.names := by
  simp only [names, vars_modify, List.map_map]
  refine List.map_congr_left fun v _ => ?_
  simp only [Function.comp_apply]
  split_ifs
  · exact hf v
  · rfl

theorem get?_modify (n : String) :
    (t.modify name f hf).get? n = if name = n then (t.get? n).map f else t.get? n := by
  have hp : (fun v : Variable => v.name == n) ∘ (fun v => if v.name = name then f v else v) =
      fun v => v.name == n := by
    funext v
    simp only [Function.comp_apply]
    split_ifs
    · rw [hf]
    · rfl
  rw [get?_eq_find?, vars_modify, List.find?_map, hp, ← get?_eq_find?]
  cases h : t.get? n with
  | none => simp
  | some v =>
    obtain rfl := name_of_get? h
    by_cases hn : name = v.name
    · simp [hn]
    · simp [hn, Ne.symm hn]

end Modify

section Upsert

variable (t : Table) {name : String} {f : Variable → Variable} {new : Variable}
  (hf : ∀ v, (f v).name = v.name) (hnew : new.name = name)

theorem upsert_of_mem (h : name ∈ t.names) :
    t.upsert name f new hf hnew = t.modify name f hf := by
  unfold upsert modify
  split
  · rename_i i hi
    rw [hi]
  · rename_i hi
    exact absurd h (index_eq_none_iff.1 hi)

theorem vars_upsert_of_not_mem (h : name ∉ t.names) :
    (t.upsert name f new hf hnew).vars = t.vars ++ [new] := by
  have hn := index_eq_none_iff.2 h
  unfold upsert
  split
  · rename_i i hi
    rw [hn] at hi
    cases hi
  · rfl

theorem names_upsert : (t.upsert name f new hf hnew).names =
    if name ∈ t.names then t.names else t.names ++ [name] := by
  split_ifs with h
  · rw [upsert_of_mem t hf hnew h, names_modify]
  · rw [names, vars_upsert_of_not_mem t hf hnew h, List.map_append, List.map_singleton, hnew, names]

end Upsert

section Members

variable {t : Table} {name : String} {f : Variable → Variable} {hf : ∀ v, (f v).name = v.name}
  {v : Variable}

theorem mem_vars_modify (hv : v ∈ (t.modify name f hf).vars) :
    v ∈ t.vars ∧ v.name ≠ name ∨ ∃ u ∈ t.vars, u.name = name ∧ v = f u := by
  rw [vars_modify] at hv
  obtain ⟨u, hu, rfl⟩ := List.mem_map.1 hv
  split_ifs with hn
  · exact .inr ⟨u, hu, hn, rfl⟩
  · exact .inl ⟨hu, hn⟩

theorem mem_vars_upsert {new : Variable} (hnew : new.name = name)
    (hv : v ∈ (t.upsert name f new hf hnew).vars) :
    v ∈ t.vars ∧ v.name ≠ name ∨ (∃ u ∈ t.vars, u.name = name ∧ v = f u) ∨
      name ∉ t.names ∧ v = new := by
  by_cases hmem : name ∈ t.names
  · rw [upsert_of_mem t hf hnew hmem] at hv
    exact (mem_vars_modify hv).imp_right .inl
  · rw [vars_upsert_of_not_mem t hf hnew hmem] at hv
    rcases List.mem_append.1 hv with hv | hv
    · exact .inl ⟨hv, fun hn => hmem (hn ▸ List.mem_map_of_mem hv)⟩
    · exact .inr (.inr ⟨hmem, List.mem_singleton.1 hv⟩)

end Members

end Table

/-! ## Operations -/

inductive TableOp where
  | declare (name : String) (value : Value) (description : Option String)
  | declareWithModes (name : String) (value : Value) (modes : List (String × Value))
      (description : Option String)
  | setMode (name mode : String) (value : Value)
  | describe (name : String) (description : Option String)

def TableOp.apply (t : Table) : TableOp → Table
  | .declare name value description => t.declare name value description
  | .declareWithModes name value modes description =>
    t.declareWithModes name value modes description
  | .setMode name mode value => t.setMode name mode value
  | .describe name description => t.describe name description

/-- The values that an operation puts in slots, each with the mode of its slot. -/
def TableOp.values : TableOp → List (Option String × Value)
  | .declare _ value _ => [(none, value)]
  | .setMode _ mode value => [(some mode, value)]
  | .declareWithModes _ value modes _ => (none, value) :: modes.map fun m => (some m.1, m.2)
  | .describe _ _ => []

/-- The name of the variable that an operation makes, if there is none of that name. -/
def TableOp.mentions : TableOp → List String
  | .declare name _ _ | .declareWithModes name _ _ _ | .setMode name _ _ => [name]
  | .describe _ _ => []

namespace Table

/-- The table that operations make out of an empty one. -/
def run (ops : List TableOp) : Table := ops.foldl TableOp.apply .empty

theorem names_declare (t : Table) (name : String) (value : Value) (description : Option String) :
    (t.declare name value description).names =
      if name ∈ t.names then t.names else t.names ++ [name] := by
  unfold declare
  exact names_upsert t _ _

theorem vars_declare_of_not_mem {t : Table} {name : String} (h : name ∉ t.names) (value : Value)
    (description : Option String) : (t.declare name value description).vars =
      t.vars ++ [.ofValue name value description] := by
  unfold declare
  exact vars_upsert_of_not_mem t _ _ h

theorem names_setMode (t : Table) (name mode : String) (value : Value) :
    (t.setMode name mode value).names =
      if name ∈ t.names then t.names else t.names ++ [name] := by
  unfold setMode
  exact names_upsert t _ _

/-- A name that an operation mentions is there afterwards: in its place if it was there before, and
at the end if not. -/
theorem names_apply (t : Table) (op : TableOp) :
    (op.apply t).names = t.names ++ op.mentions.filter fun n => n ∉ t.names := by
  have split_mem : ∀ name, (if name ∈ t.names then t.names else t.names ++ [name]) =
      t.names ++ [name].filter fun n => n ∉ t.names := fun name => by
    by_cases h : name ∈ t.names <;> simp [h]
  cases op with
  | declare name value description =>
    exact (names_declare t name value description).trans (split_mem name)
  | declareWithModes name value modes description =>
    refine (names_modify _ name _).trans ?_
    exact (names_declare t name value description).trans (split_mem name)
  | setMode name mode value =>
    exact (names_setMode t name mode value).trans (split_mem name)
  | describe name description =>
    simp only [TableOp.mentions, List.filter_nil, List.append_nil]
    exact names_modify t name _

/-! ## Places -/

def slot? (t : Table) (p : Place) : Option Slot := (t.get? p.name).bind fun v => v.slot? p.mode

/-- The variables without what is in their slots, in order. -/
def outline (t : Table) : List Outline := t.vars.map Variable.outline

theorem get?_outline (t : Table) (name : String) :
    (t.get? name).map Variable.outline = t.outline.find? fun o => o.name == name := by
  simp only [get?_eq_find?, outline, List.find?_map]
  rfl

theorem get?_outline_congr {t t' : Table} (h : t'.outline = t.outline) (name : String) :
    (t'.get? name).map Variable.outline = (t.get? name).map Variable.outline := by
  rw [get?_outline, get?_outline, h]

theorem get?_cases_of_outline_eq {t t' : Table} (h : t'.outline = t.outline) (name : String) :
    (t.get? name = none ∧ t'.get? name = none) ∨
      ∃ v v', t.get? name = some v ∧ t'.get? name = some v' ∧ v'.outline = v.outline := by
  have hg := get?_outline_congr h name
  cases hv : t.get? name with
  | none =>
    rw [hv, Option.map_none, Option.map_eq_none_iff] at hg
    exact .inl ⟨rfl, hg⟩
  | some v =>
    rw [hv, Option.map_some, Option.map_eq_some_iff] at hg
    obtain ⟨v', hv', ho⟩ := hg
    exact .inr ⟨v, v', rfl, hv', ho⟩

theorem outline_modify (t : Table) (name : String) {f : Variable → Variable}
    (hn : ∀ v, (f v).name = v.name) (hf : ∀ v, (f v).outline = v.outline) :
    (t.modify name f hn).outline = t.outline := by
  simp only [outline, vars_modify, List.map_map]
  refine List.map_congr_left fun v _ => ?_
  simp only [Function.comp_apply]
  split_ifs
  · exact hf v
  · rfl

theorem names_eq_of_outline_eq {t t' : Table} (h : t'.outline = t.outline) :
    t'.names = t.names := by
  have : ∀ t : Table, t.names = t.outline.map Outline.name := fun t => by
    simp only [names, outline, List.map_map]
    rfl
  rw [this, this, h]

end Table

/-! ## What all slots have in common -/

section Slots

variable {R : Option String → Slot → Prop}

variable (R) in
/-- All slots of a variable, each with its mode, have a property. -/
def Variable.Slots (v : Variable) : Prop := ∀ mode s, v.slot? mode = some s → R mode s

variable (R) in
def Table.Slots (t : Table) : Prop := ∀ v ∈ t.vars, v.Slots R

theorem Variable.slots_iff {v : Variable} :
    v.Slots R ↔ R none v.base ∧ ∀ m s, v.modes.get? m = some s → R (some m) s := by
  constructor
  · exact fun h => ⟨h none v.base rfl, fun m s hs => h (some m) s hs⟩
  · rintro ⟨hb, hm⟩ (_ | m) s hs
    · cases hs
      exact hb
    · exact hm m s hs

theorem Variable.Slots.insert {v : Variable} (h : v.Slots R) {mode : String} {new : Slot}
    (hn : R (some mode) new) :
    ∀ m s, (v.modes.insert mode new).get? m = some s → R (some m) s := by
  intro m s hs
  rw [SortedMap.get?_insert] at hs
  split_ifs at hs with hm
  · cases hs
    exact hm ▸ hn
  · exact (Variable.slots_iff.1 h).2 m s hs

theorem Variable.Slots.addInlineModes {modes : List (String × Value)} {v : Variable}
    (h : v.Slots R) (hm : ∀ m ∈ modes, R (some m.1) { value := m.2 }) :
    (modes.foldl (fun v m => v.addInlineMode m.1 m.2) v).Slots R := by
  induction modes generalizing v with
  | nil => exact h
  | cons m ms ih =>
    refine ih ?_ fun m' hm' => hm m' (List.mem_cons_of_mem m hm')
    exact Variable.slots_iff.2 ⟨(Variable.slots_iff.1 h).1, h.insert (hm m List.mem_cons_self)⟩

namespace Table

theorem Slots.modify {t : Table} (h : t.Slots R) (name : String) {f : Variable → Variable}
    (hn : ∀ v, (f v).name = v.name) (hf : ∀ v, v.Slots R → (f v).Slots R) :
    (t.modify name f hn).Slots R := by
  intro v hv
  rcases mem_vars_modify hv with ⟨hv, -⟩ | ⟨w, hw, -, rfl⟩
  · exact h v hv
  · exact hf w (h w hw)

theorem Slots.upsert {t : Table} (h : t.Slots R) {name : String} {f : Variable → Variable}
    {new : Variable} (hn : ∀ v, (f v).name = v.name) (hname : new.name = name)
    (hf : ∀ v, v.Slots R → (f v).Slots R) (hnew : new.Slots R) :
    (t.upsert name f new hn hname).Slots R := by
  intro v hv
  rcases mem_vars_upsert hname hv with ⟨hv, -⟩ | ⟨w, hw, -, rfl⟩ | ⟨-, rfl⟩
  · exact h v hv
  · exact hf w (h w hw)
  · exact hnew

theorem Slots.declare {t : Table} (h : t.Slots R) (name : String) {value : Value}
    (hv : R none { value }) (description : Option String) :
    (t.declare name value description).Slots R := by
  unfold Table.declare
  refine h.upsert _ _ (fun v hv' => ?_) ?_
  · refine Variable.slots_iff.2 ⟨hv, fun m s hs => ?_⟩
    change (v.inlineModes.foldl SortedMap.erase v.modes).get? m = some s at hs
    rw [SortedMap.get?_foldl_erase] at hs
    split_ifs at hs
    exact (Variable.slots_iff.1 hv').2 m s hs
  · exact Variable.slots_iff.2 ⟨hv, nofun⟩

section Zero

variable (hz : R none { value := .concrete (.color .zero) })

include hz

theorem Slots.setMode {t : Table} (h : t.Slots R) (name mode : String) {value : Value}
    (hv : R (some mode) { value }) : (t.setMode name mode value).Slots R := by
  unfold Table.setMode
  refine h.upsert _ _ (fun v hv' => ?_) ?_
  · exact Variable.slots_iff.2 ⟨(Variable.slots_iff.1 hv').1, hv'.insert hv⟩
  · have hnew : (Variable.ofMode name).Slots R := Variable.slots_iff.2 ⟨hz, nofun⟩
    exact Variable.slots_iff.2 ⟨(Variable.slots_iff.1 hnew).1, hnew.insert hv⟩

theorem Slots.apply {t : Table} (h : t.Slots R) {op : TableOp}
    (ho : ∀ x ∈ op.values, R x.1 { value := x.2 }) : (op.apply t).Slots R := by
  cases op with
  | declare name value description =>
    exact h.declare name (ho _ (List.mem_singleton_self _)) description
  | declareWithModes name value modes description =>
    refine (h.declare name (ho _ List.mem_cons_self) description).modify name _
      fun v hv => ?_
    exact hv.addInlineModes fun m hm => ho _ (List.mem_cons_of_mem _ (List.mem_map_of_mem hm))
  | setMode name mode value =>
    exact h.setMode hz name mode (ho _ (List.mem_singleton_self _))
  | describe name description =>
    exact h.modify name _ fun v hv => hv

/-- **What holds of every value that operations put in a slot, and of the color that stands for no
value, holds of all slots of the table that they make.** -/
theorem Slots.run {ops : List TableOp}
    (ho : ∀ op ∈ ops, ∀ x ∈ op.values, R x.1 { value := x.2 }) : (Table.run ops).Slots R :=
  List.foldlRecOn ops TableOp.apply nofun fun _ h op hop => h.apply hz (ho op hop)

end Zero

end Table

end Slots

end DesignVars
