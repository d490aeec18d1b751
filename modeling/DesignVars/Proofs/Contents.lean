import DesignVars.Proofs.Table
import Mathlib.Data.List.Induction
import Mathlib.Logic.Function.Basic

/-!
# Tables by what is written to them

Operations write values to places. As long as none is written twice, a table holds what is written
and nothing else, whatever the order.

* `Contents`, `Contents.write`, `Contents.foldl_write_perm`: the values written so far, by place,
  and writes to different places in any order;
* `TableOp.writes`: what an operation writes;
* `Variable.Records`, `Table.Records`: a variable, and a table, that hold what is written;
* `Table.Records.apply`, **`Table.Records.run`**: an operation, and a list of them, on places that
  were not written to before;
* `Variable.bare`, `Table.Alike`, `Table.Records.alike`: tables that hold the same.
-/

namespace DesignVars

/-! ## Writes -/

/-- The values written so far, by place. -/
abbrev Contents := Place → Option Value

namespace Contents

def empty : Contents := fun _ => none

def write (w : Contents) (x : Place × Value) : Contents := Function.update w x.1 (some x.2)

theorem write_apply (w : Contents) (x : Place × Value) (p : Place) :
    w.write x p = if p = x.1 then some x.2 else w p := Function.update_apply w x.1 (some x.2) p

theorem write_of_name_ne (w : Contents) {x : Place × Value} {p : Place}
    (h : p.name ≠ x.1.name) : w.write x p = w p := by
  rw [write_apply, if_neg fun he => h (congrArg Place.name he)]

theorem foldl_write_isSome {xs : List (Place × Value)} {w : Contents} {p : Place} :
    (xs.foldl write w p).isSome = true ↔ (w p).isSome = true ∨ p ∈ xs.map Prod.fst := by
  induction xs generalizing w with
  | nil => simp
  | cons x xs ih =>
    rw [List.foldl_cons, ih, write_apply, List.map_cons, List.mem_cons]
    by_cases h : p = x.1 <;> simp [h]

theorem foldl_write_of_notMem {xs : List (Place × Value)} {p : Place}
    (h : p ∉ xs.map Prod.fst) (w : Contents) : xs.foldl write w p = w p := by
  induction xs generalizing w with
  | nil => rfl
  | cons x xs ih =>
    rw [List.map_cons, List.mem_cons, not_or] at h
    rw [List.foldl_cons, ih h.2, write_apply, if_neg h.1]

/-- **Writes to different places can be made in any order.** -/
theorem foldl_write_perm {xs ys : List (Place × Value)} (h : xs.Perm ys)
    (hd : (xs.map Prod.fst).Nodup) (w : Contents) : xs.foldl write w = ys.foldl write w := by
  refine h.foldl_eq' (fun x hx y hy w => ?_) w
  by_cases hp : x.1 = y.1
  · rw [List.inj_on_of_nodup_map hd hx hy hp]
  · exact Function.update_comm hp (some x.2) (some y.2) w

end Contents

/-- What an operation writes. -/
def TableOp.writes (op : TableOp) : List (Place × Value) :=
  op.mentions.flatMap fun name => op.values.map fun x => (⟨name, x.1⟩, x.2)

theorem TableOp.writes_declareWithModes (name : String) (value : Value)
    (modes : List (String × Value)) (description : Option String) :
    (declareWithModes name value modes description).writes =
      (⟨name, none⟩, value) :: modes.map fun m => (⟨name, some m.1⟩, m.2) := by
  simp [writes, mentions, values]

theorem TableOp.mem_mentions_iff {op : TableOp} {name : String} :
    name ∈ op.mentions ↔ ∃ mode, ⟨name, mode⟩ ∈ op.writes.map Prod.fst := by
  constructor
  · intro h
    cases op with
    | declare | declareWithModes =>
      obtain rfl := List.mem_singleton.1 h
      exact ⟨none, List.mem_cons_self⟩
    | setMode _ mode =>
      obtain rfl := List.mem_singleton.1 h
      exact ⟨some mode, List.mem_cons_self⟩
    | describe => cases h
  · rintro ⟨mode, h⟩
    simp only [writes, List.map_flatMap, List.mem_flatMap, List.map_map, List.mem_map] at h
    obtain ⟨_, hname, x, -, he⟩ := h
    cases he
    exact hname

/-! ## Variables -/

/-- The variable without its description, and without which of its modes came with the base
value. -/
def Variable.bare (v : Variable) : Variable := { v with description := none, inlineModes := [] }

theorem Variable.slot?_bare (v : Variable) (mode : Option String) :
    v.bare.slot? mode = v.slot? mode := by cases mode <;> rfl

theorem Variable.bare_eq_of_slots {v v' : Variable} (hn : v.name = v'.name)
    (hd : v.declared = v'.declared) (hs : ∀ mode, v.slot? mode = v'.slot? mode) :
    v.bare = v'.bare := by
  have hb : v.base = v'.base := Option.some.inj (hs none)
  have hm : v.modes = v'.modes := SortedMap.ext_get? fun m => hs (some m)
  rw [bare, bare, hn, hd, hb, hm]

/-- The variable holds what is written to its places. Modes that came with a base value are
possible only once there is one. -/
structure Variable.Records (w : Contents) (v : Variable) : Prop where
  declared : v.declared = (w ⟨v.name, none⟩).isSome
  base : v.base = { value := (w ⟨v.name, none⟩).getD (.concrete (.color .zero)) }
  modes : ∀ m, v.modes.get? m = (w ⟨v.name, some m⟩).map fun x => { value := x }
  inline : v.declared = false → v.inlineModes = []

namespace Variable

section Records

variable {w w' : Contents} {v : Variable}

theorem Records.congr (h : v.Records w) (hw : ∀ mode, w' ⟨v.name, mode⟩ = w ⟨v.name, mode⟩) :
    v.Records w' := by
  obtain ⟨hd, hb, hm, hi⟩ := h
  constructor
  · rw [hw]
    exact hd
  · rw [hw]
    exact hb
  · intro m
    rw [hw]
    exact hm m
  · exact hi

theorem records_ofMode {name : String} (h : ∀ mode, w ⟨name, mode⟩ = none) :
    (ofMode name).Records w := by
  constructor
  · rw [ofMode, h]
    rfl
  · rw [ofMode, h]
    rfl
  · intro m
    rw [ofMode, h]
    rfl
  · exact fun _ => rfl

/-- A first base value takes no modes away. -/
theorem Records.redeclare (h : v.Records w) (hn : w ⟨v.name, none⟩ = none) (c : Value)
    (description : Option String) :
    (v.redeclare c description).Records (w.write (⟨v.name, none⟩, c)) := by
  have hi : v.inlineModes = [] := h.inline (by rw [h.declared, hn, Option.isSome_none])
  constructor
  · simp [Variable.redeclare, Contents.write_apply]
  · simp [Variable.redeclare, Contents.write_apply]
  · intro m
    simp [Variable.redeclare, hi, Contents.write_apply, h.modes m]
  · exact nofun

theorem Records.insert (h : v.Records w) (m : String) (c : Value) {inline : List String}
    (hi : v.declared = false → inline = []) :
    Records (w.write (⟨v.name, some m⟩, c))
      { v with modes := v.modes.insert m { value := c }, inlineModes := inline } := by
  constructor
  · simp [Contents.write_apply, h.declared]
  · simp [Contents.write_apply, h.base]
  · intro m'
    rw [SortedMap.get?_insert, Contents.write_apply]
    by_cases hm : m = m'
    · simp [hm]
    · simp [hm, Ne.symm hm, h.modes m']
  · exact hi

theorem Records.setMode (h : v.Records w) (m : String) (c : Value) :
    (v.setMode m c).Records (w.write (⟨v.name, some m⟩, c)) :=
  h.insert m c fun hd => by rw [h.inline hd, List.filter_nil]

theorem Records.addInlineModes {modes : List (String × Value)} (h : v.Records w)
    (hd : v.declared = true) : (modes.foldl (fun v m => v.addInlineMode m.1 m.2) v).Records
      ((modes.map fun m => (⟨v.name, some m.1⟩, m.2)).foldl Contents.write w) := by
  induction modes generalizing v w with
  | nil => exact h
  | cons m modes ih =>
    have hm : (v.addInlineMode m.1 m.2).Records (w.write (⟨v.name, some m.1⟩, m.2)) :=
      h.insert m.1 m.2 fun hd' => Bool.noConfusion (hd.symm.trans hd')
    exact ih hm hd

theorem Records.bare_eq {v' : Variable} (h : v.Records w) (h' : v'.Records w)
    (hn : v.name = v'.name) : v.bare = v'.bare := by
  refine bare_eq_of_slots hn (by rw [h.declared, h'.declared, hn]) fun mode => ?_
  cases mode with
  | none => exact congrArg some (by rw [h.base, h'.base, hn])
  | some m => exact (h.modes m).trans (hn ▸ (h'.modes m).symm)

end Records

end Variable

/-! ## Tables -/

/-- The table holds what is written: it has the variables with a place that is written to, and they
hold what is there. -/
structure Table.Records (w : Contents) (t : Table) : Prop where
  names : ∀ name, name ∈ t.names ↔ ∃ mode, (w ⟨name, mode⟩).isSome = true
  vars : ∀ v ∈ t.vars, v.Records w

namespace Table

section Records

variable {w w' : Contents} {t : Table} {name : String} {f : Variable → Variable}
  (hname : ∀ v, (f v).name = v.name)
  (hf : ∀ v, v.name = name → v.Records w → (f v).Records w')
  (hw : ∀ p : Place, p.name ≠ name → w' p = w p)

include hf hw

theorem records_modify (h : ∀ v ∈ t.vars, v.Records w) :
    ∀ v ∈ (t.modify name f hname).vars, v.Records w' := by
  intro v hv
  rcases mem_vars_modify hv with ⟨hv, hn⟩ | ⟨u, hu, hn, rfl⟩
  · exact (h v hv).congr fun mode => hw _ hn
  · exact hf u hn (h u hu)

theorem records_upsert (h : t.Records w) {new : Variable} (hnewName : new.name = name)
    (hnew : (Variable.ofMode name).Records w → new.Records w') :
    ∀ v ∈ (t.upsert name f new hname hnewName).vars, v.Records w' := by
  intro v hv
  rcases mem_vars_upsert hnewName hv with ⟨hv, hn⟩ | ⟨u, hu, hn, rfl⟩ | ⟨hmem, rfl⟩
  · exact (h.vars v hv).congr fun mode => hw _ hn
  · exact hf u hn (h.vars u hu)
  · rw [h.names, not_exists] at hmem
    refine hnew (Variable.records_ofMode fun mode => ?_)
    exact Option.not_isSome_iff_eq_none.1 (hmem mode)

end Records

section Operations

variable {w : Contents} {t : Table}

theorem Records.vars_declare (h : t.Records w) {name : String} (hn : w ⟨name, none⟩ = none)
    (c : Value) (description : Option String) :
    ∀ v ∈ (t.declare name c description).vars, v.Records (w.write (⟨name, none⟩, c)) := by
  refine records_upsert _ (fun v hv hr => ?_) (fun p hp => ?_) h _ fun hr => ?_
  · subst hv
    exact hr.redeclare hn c description
  · exact w.write_of_name_ne hp
  · have hnew := hr.redeclare hn c description
    exact ⟨hnew.declared, hnew.base, hnew.modes, hnew.inline⟩

theorem Records.vars_setMode (h : t.Records w) (name mode : String) (c : Value) :
    ∀ v ∈ (t.setMode name mode c).vars, v.Records (w.write (⟨name, some mode⟩, c)) := by
  refine records_upsert _ (fun v hv hr => ?_) (fun p hp => ?_) h _ fun hr => hr.setMode mode c
  · subst hv
    exact hr.setMode mode c
  · exact w.write_of_name_ne hp

theorem Records.vars_apply (h : t.Records w) {op : TableOp}
    (hfresh : ∀ p ∈ op.writes.map Prod.fst, w p = none) :
    ∀ v ∈ (op.apply t).vars, v.Records (op.writes.foldl Contents.write w) := by
  cases op with
  | declare name c description => exact h.vars_declare (hfresh _ List.mem_cons_self) c description
  | setMode name mode c => exact h.vars_setMode name mode c
  | describe name description =>
    refine records_modify _ (fun v _ hr => ?_) (fun _ _ => rfl) h.vars
    exact ⟨hr.declared, hr.base, hr.modes, hr.inline⟩
  | declareWithModes name c modes description =>
    rw [TableOp.writes_declareWithModes] at hfresh ⊢
    have hn : w ⟨name, none⟩ = none := hfresh _ List.mem_cons_self
    rw [List.foldl_cons]
    refine records_modify _ (fun v hv hr => ?_) (fun p hp => ?_) (h.vars_declare hn c description)
    · subst hv
      refine hr.addInlineModes ?_
      rw [hr.declared, Contents.write_apply, if_pos rfl, Option.isSome_some]
    · refine Contents.foldl_write_of_notMem (fun hmem => hp ?_) _
      simp only [List.map_map, List.mem_map] at hmem
      obtain ⟨m, -, rfl⟩ := hmem
      rfl

/-- **An operation on places that are not written to yet writes to them**, and changes nothing
else. -/
theorem Records.apply (h : t.Records w) {op : TableOp}
    (hfresh : ∀ p ∈ op.writes.map Prod.fst, w p = none) :
    (op.apply t).Records (op.writes.foldl Contents.write w) := by
  refine ⟨fun name => ?_, h.vars_apply hfresh⟩
  simp only [Contents.foldl_write_isSome, exists_or, ← h.names, ← TableOp.mem_mentions_iff]
  rw [names_apply]
  by_cases hn : name ∈ t.names <;> simp [hn]

/-- **Operations that write to no place twice make a table that holds what they write.** -/
theorem Records.run {ops : List TableOp}
    (hd : ((ops.flatMap TableOp.writes).map Prod.fst).Nodup) :
    (Table.run ops).Records ((ops.flatMap TableOp.writes).foldl Contents.write .empty) := by
  induction ops using List.reverseRecOn with
  | nil =>
    refine ⟨fun name => ?_, nofun⟩
    simp [Contents.empty, Table.names, Table.run, Table.empty]
  | append_singleton ops op ih =>
    rw [List.flatMap_append, List.flatMap_singleton, List.map_append, List.nodup_append] at hd
    rw [Table.run, List.foldl_append, List.flatMap_append, List.flatMap_singleton,
      List.foldl_append]
    refine (ih hd.1).apply fun p hp => ?_
    have hnot : p ∉ (ops.flatMap TableOp.writes).map Prod.fst := fun hmem =>
      hd.2.2 p hmem p hp rfl
    exact Contents.foldl_write_of_notMem hnot .empty

end Operations

/-! ## Tables that hold the same -/

/-- The tables have the same variables up to order and descriptions. -/
def Alike (t t' : Table) : Prop :=
  ∀ name, (t.get? name).map Variable.bare = (t'.get? name).map Variable.bare

theorem Records.alike {w : Contents} {t t' : Table} (h : t.Records w) (h' : t'.Records w) :
    t.Alike t' := by
  intro name
  have hnames : name ∈ t.names ↔ name ∈ t'.names := (h.names name).trans (h'.names name).symm
  cases hv : t.get? name with
  | none =>
    rw [get?_eq_none_iff, hnames, ← get?_eq_none_iff] at hv
    rw [hv]
  | some v =>
    obtain ⟨v', hv'⟩ : ∃ v', t'.get? name = some v' := by
      rw [← Option.ne_none_iff_exists', ne_eq, get?_eq_none_iff, not_not, ← hnames]
      exact name_of_get? hv ▸ List.mem_map_of_mem (mem_of_get? hv)
    have hn : v.name = v'.name := (name_of_get? hv).trans (name_of_get? hv').symm
    rw [hv', Option.map_some, Option.map_some]
    exact congrArg some ((h.vars v (mem_of_get? hv)).bare_eq (h'.vars v' (mem_of_get? hv')) hn)

theorem Alike.slot? {t t' : Table} (h : t.Alike t') (p : Place) : t.slot? p = t'.slot? p := by
  have hbare : ∀ t : Table, t.slot? p =
      ((t.get? p.name).map Variable.bare).bind fun v => v.slot? p.mode := by
    intro t
    rw [Option.bind_map]
    refine Option.bind_congr fun v _ => ?_
    exact (v.slot?_bare p.mode).symm
  rw [hbare, hbare, h]

end Table

end DesignVars
