import DesignVars.Proofs.Provenance

/-!
# What the aliases of entries refer to

A settled slot keeps the name of its target, so that a store can link the two.

* `Resolution.Exact.targetValue?_of_aliasOf`, `slot_of_aliasOf`: a settled slot holds what its
  target has in the end, and the name of the target is valid;
* `Report.Links`: the target has an entry of the type, or the stylesheet leaves it to the snapshot;
* `links_iff_of_mem`: a target in the stylesheet can be linked if it is of the type;
* `links_of_base`, `links_iff_of_mode`, **`links_finalize`**: base values can always be linked, and
  mode values unless the target has a value of its own for the mode but is of another type, or of
  none;
* **`not_forall_links`**: there are such mode values.
-/

namespace DesignVars

/-! ## Settled slots -/

theorem passOver_fresh (snapshot : Snapshot) (ds : List Declaration) :
    (passOver snapshot ds).table.Slots fun _ s => s.aliasOf = none := by
  rw [table_passOver]
  exact Table.Slots.run rfl fun _ _ _ _ => rfl

section Exact

variable {t : Table} {snapshot : Snapshot} {r : Resolution} {p : Place} {s : Slot} {target : String}

/-- A slot that names a target waited for it, and holds the value that the target has in the
end. -/
theorem Resolution.Exact.targetValue?_of_aliasOf (h : r.Exact t snapshot)
    (hf : t.Slots fun _ s => s.aliasOf = none) (hs : r.table.slot? p = some s)
    (ha : s.aliasOf = some target) :
    (∃ s₀, t.slot? p = some s₀ ∧ s₀.value = .alias target) ∧
      ∃ c, s.value = .concrete c ∧
        r.table.targetValue? snapshot ⟨p.name, target, p.mode⟩ = some c := by
  obtain ⟨s₀, hs₀⟩ := h.exists_slot? hs
  have fresh : s₀ ≠ s := by
    obtain ⟨v, hv, hslot⟩ := Option.bind_eq_some_iff.1 hs₀
    rintro rfl
    rw [hf v (Table.mem_of_get? hv) p.mode s₀ hslot] at ha
    cases ha
  by_cases hr : ∃ c, t.Reaches snapshot p c
  · obtain ⟨c, hr⟩ := hr
    rcases hv : s₀.value with c₀ | target₀
    · exact absurd (Option.some.inj ((h.kept p s₀ c₀ hs₀ hv).symm.trans hs)) fresh
    · obtain rfl := Option.some.inj ((h.settled p s₀ target₀ c hs₀ hv hr).symm.trans hs)
      obtain rfl := Option.some.inj ha
      refine ⟨⟨s₀, hs₀, hv⟩, c, rfl, ?_⟩
      rw [Table.targetValue?_eq, Table.successor?_congr h.outline]
      cases hr with
      | here hs₁ hc =>
        obtain rfl := Option.some.inj (hs₀.symm.trans hs₁)
        rw [hv] at hc
        cases hc
      | value hs₁ ha₁ hn =>
        obtain rfl := Option.some.inj (hs₀.symm.trans hs₁)
        obtain rfl := Value.alias.inj (hv.symm.trans ha₁)
        rw [hn, Option.bind_some]
      | place hs₁ ha₁ hn hq =>
        obtain rfl := Option.some.inj (hs₀.symm.trans hs₁)
        obtain rfl := Value.alias.inj (hv.symm.trans ha₁)
        rw [hn, Option.bind_some]
        exact h.concrete?_eq_some_iff.2 hq
  · have hstuck := h.stuck p s₀ hs₀ fun c hc => hr ⟨c, hc⟩
    exact absurd (Option.some.inj (hstuck.symm.trans hs)) fresh

end Exact

section Report

variable {css : String} {snapshot : Snapshot} {settings : Settings} {v : Variable}
  (hv : v ∈ (readStylesheet css snapshot).vars)

include hv

/-- **A settled slot of a stylesheet holds what its target has in the end.** -/
theorem slot_of_aliasOf {mode : Option String} {s : Slot} (hs : v.slot? mode = some s)
    {target : String} (ha : s.aliasOf = some target) : isValidName target = true ∧
      ∃ c, s.value = .concrete c ∧ (readStylesheet css snapshot).resolution.table.targetValue?
        snapshot ⟨v.name, target, mode⟩ = some c := by
  obtain ⟨⟨s₀, hs₀, hv₀⟩, hc⟩ := (readStylesheet_exact css snapshot).targetValue?_of_aliasOf
    (passOver_fresh snapshot (scan css)) ((slot?_readStylesheet hv mode).trans hs) ha
  refine ⟨?_, hc⟩
  have hfrom := ((passOver_fromText snapshot (scan css)).slot? hs₀).1
  rw [hv₀] at hfrom
  exact hfrom.validTarget

end Report

/-! ## Types of targets -/

theorem Variable.kind?_of_targetSlot?_none {w : Variable} {c : Concrete}
    (h : (w.targetSlot? none).bind Slot.concrete? = some c) : w.kind? = some c.kind := by
  cases hd : w.declared with
  | false => simp [targetSlot?, hd] at h
  | true =>
    simp only [targetSlot?, hd, if_true, Option.bind_some] at h
    rw [kind?, if_pos hd, Slot.kind?, h, Option.map_some]

theorem Variable.kind?_of_targetSlot?_some {w : Variable} {m : String} {c : Concrete}
    (h : (w.targetSlot? (some m)).bind Slot.concrete? = some c) (hm : w.modes.contains m = false) :
    w.kind? = some c.kind := by
  have hget : w.modes.get? m = none := by
    rwa [SortedMap.contains, Option.isSome_eq_false_iff, Option.isNone_iff_eq_none] at hm
  refine kind?_of_targetSlot?_none ?_
  simpa only [targetSlot?, slotFor, hget, Option.getD_none] using h

/-! ## Links -/

/-- A store can link a slot of some type to the target: there is an entry of that name and type, or
the stylesheet has no variable of that name and the snapshot holds a value of that type. -/
def Report.Links (r : Report) (snapshot : Snapshot) (entries : List Entry) (kind : Kind)
    (target : String) : Prop :=
  (∃ e ∈ entries, e.name = target ∧ e.kind = kind) ∨
    target ∉ r.vars.map Variable.name ∧ (snapshot.get? target).map Concrete.kind = some kind

instance (r : Report) (snapshot : Snapshot) (entries : List Entry) (kind : Kind)
    (target : String) : Decidable (r.Links snapshot entries kind target) :=
  inferInstanceAs (Decidable (_ ∨ _ ∧ _))

/-- What the aliases of the entries of a report refer to. -/
structure Report.Linking (r : Report) (snapshot : Snapshot) (entries : List Entry) : Prop where
  /-- A base value can be linked to its target. -/
  base : ∀ e ∈ entries, ∀ target, e.value.aliasOf = some target →
    r.Links snapshot entries e.kind target
  /-- The value of a mode can be linked exactly if its target, should it have a value of its own for
  the mode, is of the type of the entry as well. -/
  modes : ∀ e ∈ entries, ∀ m s, e.modes.get? m = some s → ∀ target, s.aliasOf = some target →
    (r.Links snapshot entries e.kind target ↔
      ∀ w ∈ r.vars, w.name = target → w.modes.contains m = true → w.kind? = some e.kind)

section Entries

variable {css : String} {snapshot : Snapshot} {settings : Settings}

/-- A target that is a variable of the stylesheet can be linked if it is of the type. -/
theorem links_iff_of_mem {w : Variable} (hw : w ∈ (readStylesheet css snapshot).vars)
    {kind : Kind} : (readStylesheet css snapshot).Links snapshot
      (finalize settings (readStylesheet css snapshot).vars) kind w.name ↔ w.kind? = some kind := by
  constructor
  · rintro (⟨e, he, hn, rfl⟩ | ⟨hn, -⟩)
    · exact w.kind?_of_finalized?
        (finalized?_of_name_eq (readStylesheet css snapshot).resolution.table.distinct hw he hn)
    · exact absurd (List.mem_map_of_mem hw) hn
  · intro hk
    obtain ⟨e, he⟩ : ∃ e, w.finalized? settings = some e := by
      rw [← Option.isSome_iff_exists, w.finalized?_isSome, hk, Option.isSome_some]
    refine .inl ⟨e, mem_finalize_iff.2 ⟨w, hw, he⟩, w.name_of_finalized? he, ?_⟩
    exact Option.some.inj ((w.kind?_of_finalized? he).symm.trans hk)

theorem links_of_targetValue? {name target : String} {mode : Option String} {c : Concrete}
    (ht : (readStylesheet css snapshot).resolution.table.targetValue? snapshot
      ⟨name, target, mode⟩ = some c)
    (hkind : ∀ w ∈ (readStylesheet css snapshot).vars, w.name = target →
      (w.targetSlot? mode).bind Slot.concrete? = some c → w.kind? = some c.kind) :
    (readStylesheet css snapshot).Links snapshot
      (finalize settings (readStylesheet css snapshot).vars) c.kind target := by
  unfold Table.targetValue? at ht
  split at ht
  · rename_i w hget
    have hw : w ∈ (readStylesheet css snapshot).vars := Table.mem_of_get? hget
    obtain rfl := Table.name_of_get? hget
    exact (links_iff_of_mem hw).2 (hkind w hw rfl ht)
  · rename_i hget
    refine .inr ⟨Table.get?_eq_none_iff.1 hget, ?_⟩
    rw [ht, Option.map_some]

section Entry

variable {e : Entry} (he : e ∈ finalize settings (readStylesheet css snapshot).vars)
  {target : String}

include he

theorem links_of_base (ha : e.value.aliasOf = some target) : isValidName target = true ∧
    (readStylesheet css snapshot).Links snapshot
      (finalize settings (readStylesheet css snapshot).vars) e.kind target := by
  obtain ⟨v, hv, hve⟩ := mem_finalize_iff.1 he
  have hk := v.kind?_of_finalized? hve
  rw [v.value_of_finalized? hve, Variable.finalBase] at ha
  split_ifs at ha with hd
  have hbase : v.slot? none = some v.base := rfl
  obtain ⟨hn, c, hc, ht⟩ := slot_of_aliasOf hv hbase ha
  rw [Variable.kind?, if_pos hd, Slot.kind?_eq_some_iff, hc] at hk
  rw [← hk.2]
  exact ⟨hn, links_of_targetValue? ht fun w _ _ hslot => w.kind?_of_targetSlot?_none hslot⟩

theorem links_iff_of_mode {m : String} {s : Slot} (hs : e.modes.get? m = some s)
    (ha : s.aliasOf = some target) : (readStylesheet css snapshot).Links snapshot
      (finalize settings (readStylesheet css snapshot).vars) e.kind target ↔
        ∀ w ∈ (readStylesheet css snapshot).vars, w.name = target →
          w.modes.contains m = true → w.kind? = some e.kind := by
  obtain ⟨v, hv, hve⟩ := mem_finalize_iff.1 he
  obtain ⟨hget, -, hk⟩ := (v.get?_modes_of_finalized? hve).1 hs
  have hmode : v.slot? (some m) = some s := hget
  obtain ⟨-, c, hc, ht⟩ := slot_of_aliasOf hv hmode ha
  rw [hc] at hk
  rw [← hk]
  constructor
  · rintro hl w hw rfl -
    exact (links_iff_of_mem hw).1 hl
  · intro hall
    refine links_of_targetValue? ht fun w hw hn hslot => ?_
    cases hm : w.modes.contains m with
    | true => exact hall w hw hn hm
    | false => exact w.kind?_of_targetSlot?_some hslot hm

end Entry

variable (css snapshot settings) in
/-- **The aliases of base values can always be linked, and those of modes unless the target has a
value of its own for the mode and is of another type, or of none.** -/
theorem links_finalize : (readStylesheet css snapshot).Linking snapshot
    (finalize settings (readStylesheet css snapshot).vars) :=
  ⟨fun _ he _ ha => (links_of_base he ha).2, fun _ he _ _ hs _ ha => links_iff_of_mode he hs ha⟩

end Entries

/-- **Not every mode value can be linked.** The target has a value for the mode, but its base value
stands for nothing, so that it has no entry. -/
theorem not_forall_links : ¬ ∀ (css : String) (snapshot : Snapshot) (settings : Settings),
    let r := readStylesheet css snapshot
    let entries := finalize settings r.vars
    ∀ e ∈ entries, (∀ target, e.value.aliasOf = some target →
        r.Links snapshot entries e.kind target) ∧
      ∀ m s, e.modes.get? m = some s → ∀ target, s.aliasOf = some target →
        r.Links snapshot entries e.kind target := by
  intro hall
  let css := "--b: var(--c); --a: #000; [data-mode=dark] \x7b --b: #fff; --a: var(--b); \x7d"
  have dangling : let r := readStylesheet css .empty
      let entries := finalize .default r.vars
      ∃ e ∈ entries, ∃ x ∈ e.modes.entries, ∃ target ∈ x.2.aliasOf.toList,
        ¬ r.Links .empty entries e.kind target := by decide +kernel
  obtain ⟨e, he, x, hx, target, ht, hno⟩ := dangling
  have hget := (e.modes.mem_entries_iff x.1 x.2).1 hx
  exact hno ((hall css .empty .default e he).2 x.1 x.2 hget target (Option.mem_toList.1 ht))

end DesignVars
