import DesignVars.Entry
import DesignVars.Proofs.Report

/-!
# From declarations to entries

* `Variable.finalized?_isSome`, `mem_finalize_iff`: which entry a variable gives;
* `Variable.exists_value_of_finalized?`: the base value of an entry is of its type;
* `exists_entry_iff`, `Variable.kind?_isSome_iff`: which variables give one;
* `Report.Accounts`, `Report.Yields`, **`readStylesheet_accounts`**: every declaration is ignored,
  refused and reported, or accepted into its variable, and every variable gives its entry unless
  what it needs is listed as unresolved.
-/

namespace DesignVars

/-! ## The type of a variable -/

theorem Slot.kind?_eq_some_iff {s : Slot} {k : Kind} :
    s.kind? = some k ↔ s.isPending = false ∧ s.value.kind = k := by
  obtain ⟨c | target, _⟩ := s
  · simp [Slot.kind?, concrete?, Value.concrete?, isPending, Value.target?, Value.kind]
  · simp [Slot.kind?, concrete?, Value.concrete?, isPending, Value.target?]

theorem Slot.kind?_isSome_iff {s : Slot} : s.kind?.isSome = true ↔ s.isPending = false := by
  simp only [Option.isSome_iff_exists, Slot.kind?_eq_some_iff, exists_and_left, exists_eq',
    and_true]

/-- A variable has a type if its base value is settled, or without a base value if one of its modes
is. -/
theorem Variable.kind?_isSome_iff {v : Variable} : v.kind?.isSome = true ↔
    if v.declared then v.base.isPending = false
    else ∃ m s, v.modes.get? m = some s ∧ s.isPending = false := by
  unfold kind?
  split_ifs
  · exact Slot.kind?_isSome_iff
  · rw [List.findSome?_isSome_iff]
    constructor
    · rintro ⟨s, hs, hk⟩
      obtain ⟨m, hm⟩ := (v.modes.mem_values_iff s).1 hs
      exact ⟨m, s, hm, Slot.kind?_isSome_iff.1 hk⟩
    · rintro ⟨m, s, hm, hk⟩
      exact ⟨s, (v.modes.mem_values_iff s).2 ⟨m, hm⟩, Slot.kind?_isSome_iff.2 hk⟩

theorem Slot.exists_concrete_of_kind {s : Slot} {k : Kind} (hp : s.isPending = false)
    (hk : s.value.kind = k) : ∃ c, s.value = .concrete c ∧ c.kind = k := by
  obtain ⟨c | target, _⟩ := s
  · exact ⟨c, rfl, hk⟩
  · cases hp

theorem kind_fallback {k : Kind} (h : k.isConcrete = true) : (fallback k).kind = k := by
  cases k
  · rfl
  · rfl
  · cases h

/-! ## Entries -/

section Entries

variable (settings : Settings)

theorem Variable.finalized?_isSome (v : Variable) :
    (v.finalized? settings).isSome = v.kind?.isSome := by
  rw [finalized?, Option.isSome_map]

variable {settings}

section Finalized

variable {v : Variable} {e : Entry} (h : v.finalized? settings = some e)

include h

theorem Variable.name_of_finalized? : e.name = v.name := by
  obtain ⟨k, _, rfl⟩ := Option.map_eq_some_iff.1 h
  rfl

theorem Variable.path_of_finalized? : e.path = pathOfName e.name := by
  obtain ⟨k, _, rfl⟩ := Option.map_eq_some_iff.1 h
  rfl

theorem Variable.scopes_of_finalized? : e.scopes = scopesFor settings e.name e.kind := by
  obtain ⟨k, _, rfl⟩ := Option.map_eq_some_iff.1 h
  rfl

theorem Variable.value_of_finalized? : e.value = v.finalBase e.kind := by
  obtain ⟨k, _, rfl⟩ := Option.map_eq_some_iff.1 h
  rfl

theorem Variable.kind?_of_finalized? : v.kind? = some e.kind := by
  obtain ⟨k, hk, rfl⟩ := Option.map_eq_some_iff.1 h
  exact hk

/-- The modes of an entry are those modes of the variable that are settled and of its type. -/
theorem Variable.get?_modes_of_finalized? {m : String} {s : Slot} : e.modes.get? m = some s ↔
      v.modes.get? m = some s ∧ s.isPending = false ∧ s.value.kind = e.kind := by
  have hm : e.modes = v.modesOf e.kind := by
    obtain ⟨k, _, rfl⟩ := Option.map_eq_some_iff.1 h
    rfl
  rw [hm, modesOf, SortedMap.get?_filterMap, Option.bind_eq_some_iff]
  simp only [Option.ite_none_right_eq_some, Option.some.injEq, Slot.kind?_eq_some_iff]
  constructor
  · rintro ⟨s', hs', hk, rfl⟩
    exact ⟨hs', hk⟩
  · rintro ⟨hs, hk⟩
    exact ⟨s, hs, hk, rfl⟩

theorem Variable.settled_of_finalized? :
    e.value.isPending = false ∧ ∀ m s, e.modes.get? m = some s → s.isPending = false := by
  refine ⟨?_, fun m s hs => ((v.get?_modes_of_finalized? h).1 hs).2.1⟩
  have hk := v.kind?_of_finalized? h
  rw [v.value_of_finalized? h, finalBase]
  split_ifs with hd
  · rw [kind?, if_pos hd] at hk
    exact (Slot.kind?_eq_some_iff.1 hk).1
  · rfl

theorem Variable.exists_value_of_finalized? :
    ∃ c, e.value.value = .concrete c ∧ c.kind = e.kind := by
  have hk := v.kind?_of_finalized? h
  rw [v.value_of_finalized? h, finalBase]
  rw [kind?] at hk
  split_ifs at hk ⊢ with hd
  · obtain ⟨hp, hk⟩ := Slot.kind?_eq_some_iff.1 hk
    exact Slot.exists_concrete_of_kind hp hk
  · obtain ⟨s, -, hs⟩ := List.exists_of_findSome?_eq_some hk
    obtain ⟨hp, hs⟩ := Slot.kind?_eq_some_iff.1 hs
    obtain ⟨c, -, hc⟩ := Slot.exists_concrete_of_kind hp hs
    exact ⟨_, rfl, kind_fallback (hc ▸ c.isConcrete_kind)⟩

end Finalized

theorem mem_finalize_iff {vars : List Variable} {e : Entry} :
    e ∈ finalize settings vars ↔ ∃ v ∈ vars, v.finalized? settings = some e := List.mem_filterMap

theorem path_of_mem_finalize {vars : List Variable} {e : Entry} (h : e ∈ finalize settings vars) :
    e.path = pathOfName e.name := by
  obtain ⟨v, -, hv⟩ := mem_finalize_iff.1 h
  exact v.path_of_finalized? hv

variable (settings) in
theorem names_finalize_sublist (vars : List Variable) :
    ((finalize settings vars).map Entry.name).Sublist (vars.map Variable.name) := by
  induction vars with
  | nil => exact List.Sublist.refl _
  | cons v vars ih =>
    unfold finalize at ih ⊢
    rw [List.filterMap_cons, List.map_cons]
    cases h : v.finalized? settings with
    | none => exact ih.cons _
    | some e =>
      simp only [List.map_cons, v.name_of_finalized? h]
      exact ih.cons_cons _

variable {vars : List Variable} (hd : (vars.map Variable.name).Nodup)

include hd in
/-- Among variables of different names, the entry of a name comes from the variable of that name. -/
theorem finalized?_of_name_eq {v : Variable} (hv : v ∈ vars) {e : Entry}
    (he : e ∈ finalize settings vars) (hn : e.name = v.name) : v.finalized? settings = some e := by
  obtain ⟨w, hw, hwe⟩ := mem_finalize_iff.1 he
  rwa [List.inj_on_of_nodup_map hd hv hw (hn.symm.trans (w.name_of_finalized? hwe))]

include hd in
theorem exists_entry_iff {v : Variable} (hv : v ∈ vars) :
    (∃ e ∈ finalize settings vars, e.name = v.name) ↔ v.kind?.isSome = true := by
  rw [← v.finalized?_isSome settings, Option.isSome_iff_exists]
  constructor
  · rintro ⟨e, he, hn⟩
    exact ⟨e, finalized?_of_name_eq hd hv he hn⟩
  · rintro ⟨e, he⟩
    exact ⟨e, mem_finalize_iff.2 ⟨v, hv, he⟩, v.name_of_finalized? he⟩

end Entries

/-! ## Classes of declarations -/

/-- No grammar of the block that the declaration stands in accepts its value. -/
def Declaration.Refused (lookup : Lookup) (d : Declaration) : Prop :=
  match d.placement with
  | .malformed => False
  | .topLevel => classify lookup d.value = none
  | .mode _ => classifyMode d.value = none

theorem Declaration.read_eq_ignored_iff {lookup : Lookup} {d : Declaration} :
    d.read lookup = .ignored ↔ d.placement = .malformed := by
  unfold read
  cases hp : d.placement with
  | malformed => simp
  | topLevel => cases classify lookup d.value <;> simp
  | mode m => cases classifyMode d.value <;> simp

theorem Declaration.read_eq_refused_iff {lookup : Lookup} {d : Declaration} :
    d.read lookup = .refused ↔ d.Refused lookup := by
  unfold read Refused
  cases hp : d.placement with
  | malformed => simp
  | topLevel => cases classify lookup d.value <;> simp
  | mode m => cases classifyMode d.value <;> simp

theorem Reading.isAccepted_iff {r : Reading} :
    r.isAccepted = true ↔ r ≠ .ignored ∧ r ≠ .refused := by
  cases r <;> simp [isAccepted]

/-! ## The account -/

/-- What a report says of the declarations of its stylesheet. -/
structure Report.Accounts (snapshot : Snapshot) (ds : List Declaration) (r : Report) : Prop where
  /-- Every declaration has one reading, -/
  declarations : (readings snapshot ds).map Prod.fst = ds
  /-- which depends on what was there before it, and puts it into one of three classes. -/
  classes : ∀ before d after, ds = before ++ d :: after →
    ∃ x, (readings snapshot ds)[before.length]? = some (d, x) ∧
      (x = .ignored ↔ d.placement = .malformed) ∧
      (x = .refused ↔ d.Refused ((passOver snapshot before).table.lookup snapshot)) ∧
      (x.isAccepted = true ↔ d.placement ≠ .malformed ∧
        ¬ d.Refused ((passOver snapshot before).table.lookup snapshot))
  /-- The refused ones are reported, in order, and nothing else is. -/
  skipped : r.skipped = (readings snapshot ds).filterMap fun x => x.1.skipped? x.2
  /-- The accepted ones have one variable for each name, in the order of first acceptance. -/
  names : r.vars.map Variable.name =
    (((readings snapshot ds).filter fun x => x.2.isAccepted).map fun x => x.1.name).eraseDups

/-- What a report says of the entries that its variables give. -/
structure Report.Yields (r : Report) (entries : List Entry) : Prop where
  /-- No two variables have one name, -/
  distinct : (r.vars.map Variable.name).Nodup
  /-- and the entries are in their order, at most one for each. -/
  order : (entries.map Entry.name).Sublist (r.vars.map Variable.name)
  /-- A base value gives an entry unless it is unresolved. -/
  declared : ∀ v ∈ r.vars, v.declared = true →
    ((∃ e ∈ entries, e.name = v.name) ↔ ¬ r.Waits ⟨v.name, none⟩)
  /-- A variable without one gives an entry if any of its modes is settled, -/
  modal : ∀ v ∈ r.vars, v.declared = false →
    ((∃ e ∈ entries, e.name = v.name) ↔ ∃ m s, v.modes.get? m = some s ∧ s.isPending = false)
  /-- and if none is, all of them are unresolved. -/
  modal_waits : ∀ v ∈ r.vars, v.declared = false → (¬ ∃ e ∈ entries, e.name = v.name) →
    ∀ m s, v.modes.get? m = some s → r.Waits ⟨v.name, some m⟩
  /-- The modes of an entry are those of its variable that are not unresolved and of its type. -/
  modes : ∀ v ∈ r.vars, ∀ e ∈ entries, e.name = v.name → ∀ m s,
    (e.modes.get? m = some s ↔
      v.modes.get? m = some s ∧ ¬ r.Waits ⟨v.name, some m⟩ ∧ s.value.kind = e.kind)
  /-- No slot of an entry waits. -/
  settled : ∀ e ∈ entries, e.value.isPending = false ∧
    ∀ m s, e.modes.get? m = some s → s.isPending = false

section Account

variable (css : String) (snapshot : Snapshot)

theorem accounts_readStylesheet :
    (readStylesheet css snapshot).Accounts snapshot (scan css) where
  declarations := readings_fst snapshot _
  classes before d after h := by
    refine ⟨d.read ((passOver snapshot before).table.lookup snapshot), ?_,
      Declaration.read_eq_ignored_iff, Declaration.read_eq_refused_iff, ?_⟩
    · rw [h, readings_append]
    · rw [Reading.isAccepted_iff, ne_eq, ne_eq, Declaration.read_eq_ignored_iff,
        Declaration.read_eq_refused_iff]
  skipped := skipped_readStylesheet css snapshot
  names := names_readStylesheet css snapshot

theorem yields_readStylesheet (settings : Settings) : (readStylesheet css snapshot).Yields
    (finalize settings (readStylesheet css snapshot).vars) := by
  have hd : ((readStylesheet css snapshot).vars.map Variable.name).Nodup :=
    (readStylesheet css snapshot).resolution.table.distinct
  have waits : ∀ v ∈ (readStylesheet css snapshot).vars, ∀ m s, v.modes.get? m = some s →
      ((readStylesheet css snapshot).Waits ⟨v.name, some m⟩ ↔ s.isPending = true) :=
    fun v hv m s hs => Report.waits_iff hv (some m) hs
  refine ⟨hd, names_finalize_sublist settings _, fun v hv hdecl => ?_, fun v hv hdecl => ?_,
    fun v hv hdecl hnone m s hs => ?_, fun v hv e he hn m s => ?_, fun e he => ?_⟩
  · rw [exists_entry_iff hd hv, Variable.kind?_isSome_iff, if_pos hdecl,
      Report.waits_iff hv none rfl, Bool.not_eq_true]
  · rw [exists_entry_iff hd hv, Variable.kind?_isSome_iff, if_neg (by simp [hdecl])]
  · rw [exists_entry_iff hd hv, Variable.kind?_isSome_iff, if_neg (by simp [hdecl])] at hnone
    rw [waits v hv m s hs]
    by_contra hp
    exact hnone ⟨m, s, hs, Bool.not_eq_true _ ▸ hp⟩
  · rw [v.get?_modes_of_finalized? (finalized?_of_name_eq hd hv he hn)]
    refine and_congr_right fun hs => and_congr_left fun _ => ?_
    rw [waits v hv m s hs, Bool.not_eq_true]
  · obtain ⟨v, _, hv⟩ := mem_finalize_iff.1 he
    exact v.settled_of_finalized? hv

/-- **Nothing is lost or reported twice on the way from a stylesheet to the entries.** -/
theorem readStylesheet_accounts (settings : Settings) :
    (readStylesheet css snapshot).Accounts snapshot (scan css) ∧
      (readStylesheet css snapshot).Yields
        (finalize settings (readStylesheet css snapshot).vars) :=
  ⟨accounts_readStylesheet css snapshot, yields_readStylesheet css snapshot settings⟩

end Account

end DesignVars
