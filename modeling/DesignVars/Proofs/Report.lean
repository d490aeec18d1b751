import DesignVars.Proofs.List
import DesignVars.Proofs.Resolution
import DesignVars.Report
import Mathlib.Data.List.Induction

/-!
# What becomes of each declaration

* `readings`: the declarations with what they amount to, each given those before it;
* `Declaration.ops`, `table_passOver`: the pass makes its table by operations, so all that holds of
  tables that operations make holds of it;
* `names_passOver`, `skipped_passOver`: the variables are the names that were accepted, in the order
  of their first acceptance, and the values that were refused are reported in order;
* `Report.Waits`, **`Report.waits_iff`**: a slot of the report waits exactly if it is listed as
  unresolved.
-/

namespace DesignVars

/-! ## Readings -/

/-- The declarations with what they amount to, each given the values before it. -/
def readings (snapshot : Snapshot) (ds : List Declaration) : List (Declaration × Reading) :=
  ds.mapIdx fun i d => (d, d.read ((passOver snapshot (ds.take i)).table.lookup snapshot))

/-- The value enters the table. -/
def Reading.isAccepted : Reading → Bool
  | .base _ | .modal _ _ => true
  | .ignored | .refused => false

/-- The declaration, if its value was refused. -/
def Declaration.skipped? (d : Declaration) : Reading → Option Skipped
  | .refused => some ⟨d.name, d.value⟩
  | .ignored | .base _ | .modal _ _ => none

/-- The operations by which a declaration enters the table. -/
def Declaration.ops (d : Declaration) : Reading → List TableOp
  | .base (.single v) => [.declare d.name v d.description]
  | .base (.dual light dark) =>
    [.declareWithModes d.name light [(lightMode, light), (darkMode, dark)] d.description]
  | .modal mode v => [.setMode d.name mode v, .describe d.name d.description]
  | .ignored | .refused => []

section Pass

variable (snapshot : Snapshot)

theorem passOver_concat (ds : List Declaration) (d : Declaration) :
    passOver snapshot (ds ++ [d]) = (passOver snapshot ds).step snapshot d := by
  unfold passOver
  rw [List.foldl_append]
  rfl

theorem table_passOver_concat (ds : List Declaration) (d : Declaration) :
    (passOver snapshot (ds ++ [d])).table = (passOver snapshot ds).table.accept d
      (d.read ((passOver snapshot ds).table.lookup snapshot)) := by
  rw [passOver_concat]
  rfl

theorem notices_passOver_concat (ds : List Declaration) (d : Declaration) :
    (passOver snapshot (ds ++ [d])).notices = (passOver snapshot ds).notices ++
      (d.notice? (d.read ((passOver snapshot ds).table.lookup snapshot))).toList := by
  rw [passOver_concat]
  rfl

theorem readings_concat (ds : List Declaration) (d : Declaration) :
    readings snapshot (ds ++ [d]) =
      readings snapshot ds ++ [(d, d.read ((passOver snapshot ds).table.lookup snapshot))] := by
  have h : (ds.mapIdx fun i e => (e, e.read
      ((passOver snapshot ((ds ++ [d]).take i)).table.lookup snapshot))) =
      readings snapshot ds := by
    rw [readings, List.mapIdx_eq_mapIdx_iff]
    intro i hi
    rw [List.take_append_of_le_length (Nat.le_of_lt hi)]
  rw [← h, readings, List.mapIdx_concat, List.take_left]

theorem readings_fst (ds : List Declaration) : (readings snapshot ds).map Prod.fst = ds := by
  induction ds using List.reverseRecOn with
  | nil => rfl
  | append_singleton ds d ih => rw [readings_concat, List.map_append, ih]; rfl

theorem readings_append (before after : List Declaration) (d : Declaration) :
    (readings snapshot (before ++ d :: after))[before.length]? =
      some (d, d.read ((passOver snapshot before).table.lookup snapshot)) := by
  unfold readings
  rw [List.getElem?_mapIdx, List.getElem?_append_right (Nat.le_refl _), Nat.sub_self,
    List.getElem?_cons_zero, Option.map_some, List.take_left]

theorem accept_eq (t : Table) (d : Declaration) (r : Reading) :
    t.accept d r = (d.ops r).foldl TableOp.apply t := by
  rcases r with _ | _ | (_ | _) | _ <;> rfl

/-- **The table of a pass is made by operations.** -/
theorem table_passOver (ds : List Declaration) : (passOver snapshot ds).table =
    Table.run ((readings snapshot ds).flatMap fun x => x.1.ops x.2) := by
  induction ds using List.reverseRecOn with
  | nil => rfl
  | append_singleton ds d ih =>
    rw [table_passOver_concat, readings_concat, List.flatMap_append, Table.run,
      List.foldl_append, accept_eq, ih, List.flatMap_singleton]
    rfl

theorem notices_passOver (ds : List Declaration) : (passOver snapshot ds).notices =
    (readings snapshot ds).filterMap fun x => x.1.notice? x.2 := by
  induction ds using List.reverseRecOn with
  | nil => rfl
  | append_singleton ds d ih =>
    rw [notices_passOver_concat, readings_concat, List.filterMap_append, ← ih]
    generalize d.read ((passOver snapshot ds).table.lookup snapshot) = r
    cases h : d.notice? r <;> simp [h]

/-- The values that were refused are reported, in order, and no others. -/
theorem skipped_passOver (ds : List Declaration) :
    (passOver snapshot ds).notices.filterMap Notice.skipped? =
      (readings snapshot ds).filterMap fun x => x.1.skipped? x.2 := by
  rw [notices_passOver, List.filterMap_filterMap]
  refine List.filterMap_congr fun x _ => ?_
  obtain ⟨d, _ | _ | _ | _⟩ := x <;> rfl

theorem names_foldl_ops (t : Table) (d : Declaration) (r : Reading) :
    ((d.ops r).foldl TableOp.apply t).names =
      t.names ++ (if r.isAccepted then [d.name] else []).filter fun n => n ∉ t.names := by
  rcases r with _ | _ | (v | ⟨light, dark⟩) | ⟨mode, v⟩
  · exact (List.append_nil _).symm
  · exact (List.append_nil _).symm
  · exact Table.names_apply t (.declare d.name v d.description)
  · exact Table.names_apply t (.declareWithModes d.name light
      [(lightMode, light), (darkMode, dark)] d.description)
  · refine (Table.names_apply _ (.describe _ _)).trans ?_
    rw [TableOp.mentions, List.filter_nil, List.append_nil]
    exact Table.names_apply t (.setMode d.name mode v)

/-- **There is one variable for each accepted name, in the order of first acceptance.** -/
theorem names_passOver (ds : List Declaration) : (passOver snapshot ds).table.names =
    (((readings snapshot ds).filter fun x => x.2.isAccepted).map fun x => x.1.name).eraseDups := by
  induction ds using List.reverseRecOn with
  | nil => rfl
  | append_singleton ds d ih =>
    rw [table_passOver_concat, readings_concat, List.filter_append, List.map_append, accept_eq,
      names_foldl_ops, ih]
    generalize d.read ((passOver snapshot ds).table.lookup snapshot) = r
    cases hr : r.isAccepted with
    | false => simp [hr]
    | true =>
      rw [List.filter_singleton, hr, cond_true, List.map_singleton, eraseDups_concat, if_pos rfl]

end Pass

/-! ## Slots that wait -/

theorem Variable.slot?_isSome_congr {v w : Variable} (h : v.outline = w.outline)
    (mode : Option String) : (v.slot? mode).isSome = (w.slot? mode).isSome := by
  have hk : v.modes.keys = w.modes.keys := congrArg Outline.modes h
  cases mode with
  | none => rfl
  | some m =>
    change v.modes.contains m = w.modes.contains m
    rw [Bool.eq_iff_iff, SortedMap.contains_iff_mem_keys, SortedMap.contains_iff_mem_keys, hk]

theorem Table.slot?_isSome_congr {t t' : Table} (h : t'.outline = t.outline) (p : Place) :
    (t'.slot? p).isSome = (t.slot? p).isSome := by
  unfold slot?
  rcases get?_cases_of_outline_eq h p.name with ⟨hv, hv'⟩ | ⟨v, v', hv, hv', ho⟩
  · rw [hv, hv']
  · rw [hv, hv']
    exact Variable.slot?_isSome_congr ho p.mode

theorem Resolution.Exact.exists_slot? {t : Table} {snapshot : Snapshot} {r : Resolution}
    (h : r.Exact t snapshot) {p : Place} {s : Slot} (hs : r.table.slot? p = some s) :
    ∃ s₀, t.slot? p = some s₀ := by
  have hsome := Table.slot?_isSome_congr h.outline p
  rwa [hs, Option.isSome_some, eq_comm, Option.isSome_iff_exists] at hsome

theorem Table.Reaches.exists_slot? {t : Table} {snapshot : Snapshot} {p : Place} {c : Concrete}
    (h : t.Reaches snapshot p c) : ∃ s, t.slot? p = some s := by
  cases h with
  | here hs _ => exact ⟨_, hs⟩
  | value hs _ _ => exact ⟨_, hs⟩
  | place hs _ _ _ => exact ⟨_, hs⟩

theorem Value.concrete?_eq_some_iff {v : Value} {c : Concrete} :
    v.concrete? = some c ↔ v = .concrete c := by cases v <;> simp [concrete?]

theorem Resolution.Exact.concrete?_eq_some_iff {t : Table} {snapshot : Snapshot} {r : Resolution}
    (h : r.Exact t snapshot) {p : Place} {c : Concrete} :
    (r.table.slot? p).bind Slot.concrete? = some c ↔ t.Reaches snapshot p c := by
  have settled : ∀ c', t.Reaches snapshot p c' →
      (r.table.slot? p).bind Slot.concrete? = some c' := by
    intro c' hr
    obtain ⟨s₀, hs₀⟩ := hr.exists_slot?
    rcases hv : s₀.value with c₀ | target
    · rw [h.kept p s₀ c₀ hs₀ hv, hr.unique (.here hs₀ hv)]
      exact Value.concrete?_eq_some_iff.2 hv
    · rw [h.settled p s₀ target c' hs₀ hv hr]
      rfl
  refine ⟨fun hc => ?_, settled c⟩
  by_cases hr : ∃ c', t.Reaches snapshot p c'
  · obtain ⟨c', hr⟩ := hr
    obtain rfl := Option.some.inj (hc.symm.trans (settled c' hr))
    exact hr
  · obtain ⟨s, hs, hc⟩ := Option.bind_eq_some_iff.1 hc
    obtain ⟨s₀, hs₀⟩ := h.exists_slot? hs
    rw [h.stuck p s₀ hs₀ fun c' hr' => hr ⟨c', hr'⟩] at hs
    obtain rfl := Option.some.inj hs
    exact .here hs₀ (Value.concrete?_eq_some_iff.1 hc)

/-- A slot of the result waits exactly if it is given back as unresolved. -/
theorem Resolution.Exact.waits_iff {t : Table} {snapshot : Snapshot} {r : Resolution}
    (h : r.Exact t snapshot) {p : Place} {s : Slot} (hs : r.table.slot? p = some s) :
    (∃ a ∈ r.unresolved, a.place = p) ↔ s.isPending = true := by
  obtain ⟨s₀, hs₀⟩ := h.exists_slot? hs
  constructor
  · rintro ⟨a, ha, rfl⟩
    obtain ⟨⟨s₁, hs₁, hv⟩, hn⟩ := (h.mem_unresolved a).1 ha
    have : s = s₁ := Option.some.inj (hs.symm.trans (h.stuck _ _ hs₁ hn))
    rw [this, Slot.isPending, hv]
    rfl
  · intro hp
    rcases hv : s₀.value with c | target
    · have : s = s₀ := Option.some.inj (hs.symm.trans (h.kept _ _ _ hs₀ hv))
      rw [this, Slot.isPending, hv] at hp
      cases hp
    · refine ⟨⟨p.name, target, p.mode⟩, (h.mem_unresolved _).2 ⟨⟨s₀, hs₀, hv⟩, fun c hc => ?_⟩, rfl⟩
      have := Option.some.inj (hs.symm.trans (h.settled _ _ _ _ hs₀ hv hc))
      rw [this] at hp
      cases hp

/-! ## Reports -/

/-- The slot at a place is listed as unresolved. -/
def Report.Waits (r : Report) (p : Place) : Prop := ∃ a ∈ r.unresolved, a.place = p

section Report

variable (css : String) (snapshot : Snapshot)

theorem readStylesheet_exact : (readStylesheet css snapshot).resolution.Exact
    (passOver snapshot (scan css)).table snapshot :=
  exact_resolve _ snapshot

theorem names_readStylesheet : (readStylesheet css snapshot).vars.map Variable.name =
    (((readings snapshot (scan css)).filter fun x => x.2.isAccepted).map
      fun x => x.1.name).eraseDups := by
  rw [← names_passOver]
  exact Table.names_eq_of_outline_eq (readStylesheet_exact css snapshot).outline

theorem skipped_readStylesheet : (readStylesheet css snapshot).skipped =
    (readings snapshot (scan css)).filterMap fun x => x.1.skipped? x.2 :=
  skipped_passOver snapshot (scan css)

variable {css snapshot} {v : Variable} (hv : v ∈ (readStylesheet css snapshot).vars)

include hv

theorem slot?_readStylesheet (mode : Option String) :
    (readStylesheet css snapshot).resolution.table.slot? ⟨v.name, mode⟩ = v.slot? mode := by
  rw [Table.slot?, Table.get?_of_mem hv, Option.bind_some]

/-- **A slot of a variable waits exactly if it is listed as unresolved.** -/
theorem Report.waits_iff (mode : Option String) {s : Slot} (hs : v.slot? mode = some s) :
    (readStylesheet css snapshot).Waits ⟨v.name, mode⟩ ↔ s.isPending = true :=
  (readStylesheet_exact css snapshot).waits_iff ((slot?_readStylesheet hv mode).trans hs)

end Report

end DesignVars
