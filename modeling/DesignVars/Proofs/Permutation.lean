import DesignVars.Proofs.Contents
import DesignVars.Proofs.List
import DesignVars.Proofs.Reimport

/-!
# Declarations in another order

Colors that are made from other variables read what was declared before them, and of two values for
one slot the later counts. Apart from that the order of the declarations does not matter.

* `Table.Alike.reaches`, `Resolution.Exact.alike`, `Resolution.Exact.perm_unresolved`: tables that
  hold the same are settled alike;
* `Declaration.key`, `Declaration.writes`, `WritesOnce`: a declaration up to comments and the way
  its mode is named, what it writes, and stylesheets that write no slot twice;
* `readings_eq_map`: declarations that read no variables amount to the same everywhere;
* `Report.Alike`, **`readStylesheet_perm`**: reports of the same declarations in another order.
-/

namespace DesignVars

/-! ## Settling tables that hold the same -/

section Tables

variable {t t' : Table} {snapshot : Snapshot}

theorem Variable.placeFor?_bare (v : Variable) (mode : Option String) :
    v.bare.placeFor? mode = v.placeFor? mode := by cases mode <;> rfl

namespace Table

theorem Alike.symm (h : t.Alike t') : t'.Alike t := fun name => (h name).symm

theorem Alike.successor? (h : t.Alike t') (target : String) (mode : Option String) :
    t.successor? snapshot target mode = t'.successor? snapshot target mode := by
  have hname := h target
  unfold Table.successor?
  cases hv : t.get? target with
  | none =>
    rw [hv, Option.map_none, eq_comm, Option.map_eq_none_iff] at hname
    rw [hname]
  | some v =>
    rw [hv, Option.map_some, eq_comm, Option.map_eq_some_iff] at hname
    obtain ⟨v', hv', hbare⟩ := hname
    simp only [hv', ← v.placeFor?_bare, ← v'.placeFor?_bare, hbare]

theorem Alike.reaches (h : t.Alike t') {p : Place} {c : Concrete} (hr : t.Reaches snapshot p c) :
    t'.Reaches snapshot p c := by
  induction hr with
  | here hs hc =>
    rw [h.slot?] at hs
    exact .here hs hc
  | value hs ha hn =>
    rw [h.slot?] at hs
    rw [h.successor?] at hn
    exact .value hs ha hn
  | place hs ha hn _ ih =>
    rw [h.slot?] at hs
    rw [h.successor?] at hn
    exact .place hs ha hn ih

theorem Alike.reaches_iff (h : t.Alike t') {p : Place} {c : Concrete} :
    t.Reaches snapshot p c ↔ t'.Reaches snapshot p c := ⟨h.reaches, h.symm.reaches⟩

theorem Alike.perm_vars (h : t.Alike t') :
    (t.vars.map Variable.bare).Perm (t'.vars.map Variable.bare) := by
  have nodup : ∀ t : Table, (t.vars.map Variable.bare).Nodup := by
    intro t
    refine List.Nodup.of_map Variable.name ?_
    rw [List.map_map]
    exact t.distinct
  have subset : ∀ {t t' : Table}, t.Alike t' →
      t.vars.map Variable.bare ⊆ t'.vars.map Variable.bare := by
    intro t t' h x hx
    obtain ⟨v, hv, rfl⟩ := List.mem_map.1 hx
    have hname := h v.name
    rw [get?_of_mem hv, Option.map_some, eq_comm, Option.map_eq_some_iff] at hname
    obtain ⟨v', hv', hbare⟩ := hname
    exact List.mem_map.2 ⟨v', mem_of_get? hv', hbare⟩
  rw [List.perm_ext_iff_of_nodup (nodup t) (nodup t')]
  exact fun x => ⟨(subset h ·), (subset h.symm ·)⟩

end Table

namespace Resolution.Exact

variable {r r' : Resolution} (hr : r.Exact t snapshot)

include hr

theorem slot?_eq_none {p : Place} (h : t.slot? p = none) : r.table.slot? p = none := by
  have hsome := Table.slot?_isSome_congr hr.outline p
  rwa [h, Option.isSome_none, Option.isSome_eq_false_iff, Option.isNone_iff_eq_none] at hsome

theorem declared (name : String) :
    (r.table.get? name).map Variable.declared = (t.get? name).map Variable.declared := by
  have := congrArg (Option.map Outline.declared) (Table.get?_outline_congr hr.outline name)
  rwa [Option.map_map, Option.map_map] at this

variable (hr' : r'.Exact t' snapshot) (h : t.Alike t')

include hr' h

theorem slot?_eq_of_alike (p : Place) : r.table.slot? p = r'.table.slot? p := by
  cases hs : t.slot? p with
  | none =>
    have hs' : t'.slot? p = none := h.slot? p ▸ hs
    rw [slot?_eq_none hr hs, slot?_eq_none hr' hs']
  | some s =>
    have hs' : t'.slot? p = some s := h.slot? p ▸ hs
    rcases hv : s.value with c | target
    · rw [hr.kept p s c hs hv, hr'.kept p s c hs' hv]
    · by_cases hc : ∃ c, t.Reaches snapshot p c
      · obtain ⟨c, hc⟩ := hc
        rw [hr.settled p s target c hs hv hc, hr'.settled p s target c hs' hv (h.reaches hc)]
      · have hstuck : ∀ c, ¬ t'.Reaches snapshot p c := fun c hc' => hc ⟨c, h.symm.reaches hc'⟩
        rw [hr.stuck p s hs fun c hc' => hc ⟨c, hc'⟩, hr'.stuck p s hs' hstuck]

/-- **Tables that hold the same do so when they are settled.** -/
theorem alike : r.table.Alike r'.table := by
  intro name
  have hd : (r.table.get? name).map Variable.declared =
      (r'.table.get? name).map Variable.declared := by
    rw [declared hr, declared hr']
    have := congrArg (Option.map Variable.declared) (h name)
    rwa [Option.map_map, Option.map_map] at this
  cases hv : r.table.get? name with
  | none =>
    rw [hv, Option.map_none, eq_comm, Option.map_eq_none_iff] at hd
    rw [hd]
  | some v =>
    rw [hv, Option.map_some, eq_comm, Option.map_eq_some_iff] at hd
    obtain ⟨v', hv', hd⟩ := hd
    rw [hv', Option.map_some, Option.map_some]
    have hn : v.name = v'.name := (Table.name_of_get? hv).trans (Table.name_of_get? hv').symm
    refine congrArg some (Variable.bare_eq_of_slots hn hd.symm fun mode => ?_)
    have hs := slot?_eq_of_alike hr hr' h ⟨name, mode⟩
    simpa only [Table.slot?, hv, hv', Option.bind_some] using hs

theorem perm_unresolved : r.unresolved.Perm r'.unresolved := by
  rw [List.perm_ext_iff_of_nodup hr.nodup hr'.nodup]
  intro a
  rw [hr.mem_unresolved, hr'.mem_unresolved, h.slot?]
  simp only [h.reaches_iff]

end Resolution.Exact

end Tables

/-! ## Declarations -/

/-- A declaration up to comments and how the blocks around it name its mode. -/
def Declaration.key (d : Declaration) : String × String × Placement :=
  (d.name, d.value, d.placement)

/-- The values that a declaration writes, each with its place: a base value by itself, a base value
along with its values for light and dark, or the value of a mode. -/
def Declaration.writes (d : Declaration) (r : Reading) : List (Place × Value) :=
  (d.ops r).flatMap TableOp.writes

/-- What all declarations of a stylesheet write. -/
def writesOf (snapshot : Snapshot) (css : String) : List (Place × Value) :=
  (readings snapshot (scan css)).flatMap fun x => x.1.writes x.2

/-- No place is written to twice. -/
def WritesOnce (snapshot : Snapshot) (css : String) : Prop :=
  ((writesOf snapshot css).map Prod.fst).Nodup

instance (snapshot : Snapshot) (css : String) : Decidable (WritesOnce snapshot css) :=
  inferInstanceAs (Decidable (List.Nodup _))

section Keys

variable {d d' : Declaration} (h : d.key = d'.key)

include h

theorem Declaration.names_eq_of_key : d.names = d'.names := by
  simp only [key, Prod.mk.injEq] at h
  rw [names, names, h.2.1, h.2.2]

theorem Declaration.read_eq_of_key (lookup : Lookup) : d.read lookup = d'.read lookup := by
  simp only [key, Prod.mk.injEq] at h
  rw [read, read, h.2.1, h.2.2]

theorem Declaration.skipped?_eq_of_key (r : Reading) : d.skipped? r = d'.skipped? r := by
  simp only [key, Prod.mk.injEq] at h
  cases r <;> simp [skipped?, h.1, h.2.1]

theorem Declaration.writes_eq_of_key (r : Reading) : d.writes r = d'.writes r := by
  simp only [key, Prod.mk.injEq] at h
  rcases r with _ | _ | (_ | _) | _ <;>
    simp [writes, ops, TableOp.writes, TableOp.mentions, TableOp.values, h.1]

end Keys

theorem passOver_records {snapshot : Snapshot} {css : String} (h : WritesOnce snapshot css) :
    (passOver snapshot (scan css)).table.Records
      ((writesOf snapshot css).foldl Contents.write .empty) := by
  have hw : ((readings snapshot (scan css)).flatMap fun x => x.1.ops x.2).flatMap TableOp.writes =
      writesOf snapshot css := List.flatMap_assoc
  rw [table_passOver, ← hw]
  refine Table.Records.run ?_
  rw [hw]
  exact h

theorem readings_eq_map {ds : List Declaration} (h : ∀ d ∈ ds, d.names = []) (snapshot : Snapshot)
    (lookup : Lookup) : readings snapshot ds = ds.map fun d => (d, d.read lookup) := by
  rw [readings, List.mapIdx_eq_iff]
  intro i
  rw [List.getElem?_map]
  refine Option.map_congr fun d hd => ?_
  have hnames : d.names = [] := h d (List.mem_of_getElem? hd)
  refine congrArg (Prod.mk d) (Declaration.read_congr fun n hn => ?_)
  rw [hnames] at hn
  cases hn

/-! ## Reports -/

/-- The reports say the same, in any order: of the variables up to their descriptions, of the
aliases that stand for nothing, and of the values that were refused. -/
structure Report.Alike (r r' : Report) : Prop where
  vars : (r.vars.map Variable.bare).Perm (r'.vars.map Variable.bare)
  unresolved : r.unresolved.Perm r'.unresolved
  skipped : r.skipped.Perm r'.skipped

section Report

variable {snapshot : Snapshot} {css css' : String}
  (hk : ((scan css).map Declaration.key).Perm ((scan css').map Declaration.key))
  (hr : ReadsNoVariables css)

include hk hr

theorem names_eq_nil_of_perm : ∀ d ∈ scan css', d.names = [] := by
  intro d' hd'
  obtain ⟨d, hd, hkey⟩ := List.mem_map.1 (hk.mem_iff.2 (List.mem_map_of_mem hd'))
  rw [← Declaration.names_eq_of_key hkey]
  exact hr.names_eq_nil d hd

/-- What depends on the keys and readings of declarations is the same in another order. -/
theorem perm_flatMap_readings {γ : Type} {f : Declaration → Reading → List γ}
    (hf : ∀ d d' r, d.key = d'.key → f d r = f d' r) :
    ((readings snapshot (scan css)).flatMap fun x => f x.1 x.2).Perm
      ((readings snapshot (scan css')).flatMap fun x => f x.1 x.2) := by
  rw [readings_eq_map hr.names_eq_nil snapshot snapshot.lookup,
    readings_eq_map (names_eq_nil_of_perm hk hr) snapshot snapshot.lookup, List.flatMap_map,
    List.flatMap_map]
  refine perm_flatMap_of_key (fun d d' hkey => ?_) hk
  rw [Declaration.read_eq_of_key hkey]
  exact hf d d' _ hkey

theorem perm_writesOf : (writesOf snapshot css).Perm (writesOf snapshot css') :=
  perm_flatMap_readings hk hr fun _ _ r h => Declaration.writes_eq_of_key h r

theorem perm_skipped :
    (readStylesheet css snapshot).skipped.Perm (readStylesheet css' snapshot).skipped := by
  rw [skipped_readStylesheet, skipped_readStylesheet, List.filterMap_eq_flatMap_toList,
    List.filterMap_eq_flatMap_toList]
  refine perm_flatMap_readings (f := fun d r => (d.skipped? r).toList) hk hr fun d d' r h => ?_
  rw [Declaration.skipped?_eq_of_key h]

theorem passOver_alike (hw : WritesOnce snapshot css) :
    (passOver snapshot (scan css)).table.Alike (passOver snapshot (scan css')).table := by
  have hperm : (writesOf snapshot css).Perm (writesOf snapshot css') := perm_writesOf hk hr
  have hw' : WritesOnce snapshot css' := (hperm.map Prod.fst).nodup_iff.1 hw
  have hrecords := passOver_records hw
  rw [Contents.foldl_write_perm hperm hw] at hrecords
  exact hrecords.alike (passOver_records hw')

/-- **The order of declarations does not matter** as long as none reads a variable and no slot is
written twice. -/
theorem readStylesheet_perm (hw : WritesOnce snapshot css) :
    (readStylesheet css snapshot).Alike (readStylesheet css' snapshot) := by
  have h := passOver_alike hk hr hw
  have he := readStylesheet_exact css snapshot
  have he' := readStylesheet_exact css' snapshot
  constructor
  · exact (he.alike he' h).perm_vars
  · exact he.perm_unresolved he' h
  · exact perm_skipped hk hr

end Report

/-- Aliases of a base value with values for light and dark, of the snapshot, and of nothing, and a
value that is refused. -/
theorem readStylesheet_perm_aliases :
    let css := "--a: var(--b); --b: light-dark(#fff, var(--x-1)); --d: foo;" ++
      "[data-mode=hc] \x7b --a: var(--c); --b: #000; \x7d"
    let css' := "--d: foo; [data-mode=hc] \x7b --b: #000; --a: var(--c); \x7d" ++
      "--b: light-dark(#fff, var(--x-1)); --a: var(--b);"
    let snapshot := Snapshot.empty.insert "x-1" (.concrete (.color .zero))
    ((scan css).map Declaration.key).Perm ((scan css').map Declaration.key) ∧
      ReadsNoVariables css ∧ WritesOnce snapshot css ∧
      (readStylesheet css snapshot).Alike (readStylesheet css' snapshot) := by
  intro css css' snapshot
  have hk : ((scan css).map Declaration.key).Perm ((scan css').map Declaration.key) := by
    decide +kernel
  have hr : ReadsNoVariables css := by decide +kernel
  have hw : WritesOnce snapshot css := by decide +kernel
  exact ⟨hk, hr, hw, readStylesheet_perm hk hr hw⟩

end DesignVars
