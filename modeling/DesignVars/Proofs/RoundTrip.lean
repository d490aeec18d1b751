import DesignVars.Proofs.Provenance
import DesignVars.Proofs.Rereading

/-!
# Rendering the entries of a stylesheet and reading them again

* `Renderable`: entries with finite numbers, whose modes a selector can name;
* `Value.Alike`, `Entry.SameBase`, `Entry.SameModes`: what two entries have in common;
* `readable_of_mem_finalize`: if the entries of a stylesheet are renderable, they are read again;
* **`sameBase_rendered`**: they keep their order, their types and their base values;
* **`sameModes_rendered`**: the colors keep their modes, and the numbers lose them
  (`not_forall_sameModes`).
-/

namespace DesignVars

/-! ## Entries -/

/-- The base value and the values of the modes. -/
def Entry.values (e : Entry) : List Value := e.value.value :: e.modes.values.map Slot.value

/-- Entries whose numbers are finite and are read from their text, and whose modes are made of
letters, digits, hyphens and underscores. -/
structure Renderable (entries : List Entry) : Prop where
  finite : ∀ e ∈ entries, ∀ v ∈ e.values, ∀ x ∈ v.numbers, x.isFinite = true
  numbers : ∀ e ∈ entries, ∀ v ∈ e.values, ∀ x ∈ v.numbers, NumberReadsBack x
  modes : ∀ e ∈ entries, ∀ m ∈ e.modes.keys, m.toList.all isNameLetter = true

/-- Equal numbers, or colors of the same digits. -/
inductive Value.Alike : Value → Value → Prop
  | number (x : Float) : Alike (.concrete (.number x)) (.concrete (.number x))
  | color {c c' : Rgba} (h : c.hex = c'.hex) :
    Alike (.concrete (.color c)) (.concrete (.color c'))

/-- Entries that do not differ but in their modes and descriptions. -/
structure Entry.SameBase (e e' : Entry) : Prop where
  name : e.name = e'.name
  path : e.path = e'.path
  kind : e.kind = e'.kind
  scopes : e.scopes = e'.scopes
  value : e.value.value.Alike e'.value.value

/-- Entries with the same modes and with like values for them. -/
def Entry.SameModes (e e' : Entry) : Prop :=
  ∀ m, Option.Rel (fun s s' : Slot => s.value.Alike s'.value) (e.modes.get? m) (e'.modes.get? m)

theorem Entry.Holds.alike {e : Entry} {v : Value} (h : e.Holds v) : v.Alike v.rounded := by
  obtain ⟨c, rfl, -, -⟩ := h
  cases c with
  | number x => exact .number x
  | color c => exact .color c.hex_rounded.symm

/-! ## Readable entries -/

section Stylesheet

variable {css : String} {snapshot : Snapshot} {settings : Settings}

theorem readable_of_mem_finalize
    (h : Renderable (finalize settings (readStylesheet css snapshot).vars)) {e : Entry}
    (he : e ∈ finalize settings (readStylesheet css snapshot).vars) : e.Readable := by
  have hholds : ∀ v ∈ e.values, (∃ c, v = .concrete c ∧ c.kind = e.kind) → e.Holds v := by
    rintro _ hv ⟨c, rfl, hk⟩
    refine ⟨c, rfl, hk, ?_⟩
    cases c with
    | color c => trivial
    | number x =>
      have hx := h.finite e he _ hv x (List.mem_singleton_self x)
      exact ⟨hx, h.numbers e he _ hv x (List.mem_singleton_self x) hx⟩
  obtain ⟨v, hv, hve⟩ := mem_finalize_iff.1 he
  refine ⟨isValidName_of_mem_finalize he,
    hholds _ List.mem_cons_self (v.exists_value_of_finalized? hve), fun m s hs => ⟨?_, ?_⟩⟩
  · have hblank := isAllBlank_of_mem_vars hv ((v.get?_modes_of_finalized? hve).1 hs).1
    have hm : m.isEmpty = false := by
      rw [Bool.eq_false_iff]
      intro hm
      rw [String.isEmpty_iff.1 hm] at hblank
      cases hblank
    rw [isValidName, hm, Bool.not_false, Bool.true_and]
    exact h.modes e he m (SortedMap.mem_keys_iff.2 ⟨s, hs⟩)
  · have hmem : s.value ∈ e.values :=
      List.mem_cons_of_mem _ (List.mem_map_of_mem ((e.modes.mem_values_iff s).2 ⟨m, hs⟩))
    obtain ⟨-, hp, hk⟩ := (v.get?_modes_of_finalized? hve).1 hs
    exact hholds _ hmem (Slot.exists_concrete_of_kind hp hk)

theorem Entry.Readable.sameBase_reread {e : Entry} (h : e.Readable) {v : Variable}
    (hv : v.finalized? settings = some e) : e.SameBase (e.reread settings) where
  name := rfl
  path := v.path_of_finalized? hv
  kind := rfl
  scopes := v.scopes_of_finalized? hv
  value := h.base.alike

theorem Entry.Readable.sameModes_reread {e : Entry} (h : e.Readable) (hk : e.kind = .color)
    (settings : Settings) : e.SameModes (e.reread settings) := by
  intro m
  rw [Entry.reread, SortedMap.get?_filterMap]
  cases hs : e.modes.get? m with
  | none => exact .none
  | some s =>
    rw [Option.bind_some, if_pos hk]
    exact .some (h.modes m s hs).2.alike

theorem Entry.modes_reread_of_ne {e : Entry} (hk : e.kind ≠ .color) (settings : Settings) :
    (e.reread settings).modes = .empty := by
  refine SortedMap.ext_get? fun m => ?_
  rw [Entry.reread, SortedMap.get?_filterMap]
  simp [hk]

end Stylesheet

/-! ## Base values -/

/-- **The rendered entries of a stylesheet are read as entries of the same order, the same names,
types and scopes and like base values, and no alias is left.** -/
theorem sameBase_rendered (css : String) (snapshot : Snapshot) (settings : Settings) :
    let entries := finalize settings (readStylesheet css snapshot).vars
    let report := readStylesheet (renderStylesheet entries) .empty
    Renderable entries →
      report.unresolved = [] ∧
        List.Forall₂ Entry.SameBase entries (finalize settings report.vars) := by
  intro entries report h
  have hread : ∀ e ∈ entries, e.Readable := fun e he => readable_of_mem_finalize h he
  have hd : (entries.map Entry.name).Nodup := nodup_names_finalize css snapshot settings
  refine ⟨unresolved_rendered hread hd .empty, ?_⟩
  rw [finalize_rendered hread hd, List.forall₂_map_right_iff, List.forall₂_same]
  intro e he
  obtain ⟨v, -, hv⟩ := mem_finalize_iff.1 he
  exact (hread e he).sameBase_reread hv

theorem sameBase_rendered_colors :
    let css := "--a: 1.5; --b: #fff; [data-mode=x] \x7b --b: #000; \x7d"
    let entries := finalize .default (readStylesheet css .empty).vars
    let report := readStylesheet (renderStylesheet entries) .empty
    Renderable entries ∧ report.unresolved = [] ∧
      List.Forall₂ Entry.SameBase entries (finalize .default report.vars) := by
  intro css entries report
  have h : Renderable entries := ⟨by decide +kernel, by decide +kernel, by decide +kernel⟩
  exact ⟨h, sameBase_rendered css .empty .default h⟩

/-! ## Modes -/

/-- **The rendered colors of a stylesheet are read with the same modes and like values for them,
while of the numbers no modes are left.** -/
theorem sameModes_rendered (css : String) (snapshot : Snapshot) (settings settings' : Settings) :
    let entries := finalize settings (readStylesheet css snapshot).vars
    Renderable entries → ∀ e ∈ entries,
      ∃ e' ∈ finalize settings' (readStylesheet (renderStylesheet entries) .empty).vars,
        e'.name = e.name ∧ (e.kind = .color → e.SameModes e') ∧
          (e.kind ≠ .color → e'.modes = .empty) := by
  intro entries h e he
  have hread : ∀ e ∈ entries, e.Readable := fun e he => readable_of_mem_finalize h he
  have hd : (entries.map Entry.name).Nodup := nodup_names_finalize css snapshot settings
  rw [finalize_rendered hread hd]
  exact ⟨e.reread settings', List.mem_map_of_mem he, rfl,
    fun hk => (hread e he).sameModes_reread hk settings',
    fun hk => Entry.modes_reread_of_ne hk settings'⟩

theorem sameModes_rendered_color :
    let css := "--n: 5; --a: 1; --b: #fff; [data-mode=x] \x7b --a: var(--n); --b: #000; \x7d"
    let entries := finalize .default (readStylesheet css .empty).vars
    Renderable entries ∧ ∀ e ∈ entries,
      ∃ e' ∈ finalize .default (readStylesheet (renderStylesheet entries) .empty).vars,
        e'.name = e.name ∧ (e.kind = .color → e.SameModes e') ∧
          (e.kind ≠ .color → e'.modes = .empty) := by
  intro css entries
  have h : Renderable entries := ⟨by decide +kernel, by decide +kernel, by decide +kernel⟩
  exact ⟨h, sameModes_rendered css .empty .default .default h⟩

/-- **Not all modes are read again.** A number may have a value for a mode, by an alias, and is
rendered with it, but a mode block takes no numbers. -/
theorem not_forall_sameModes : ¬ ∀ (css : String) (snapshot : Snapshot)
    (settings settings' : Settings),
    let entries := finalize settings (readStylesheet css snapshot).vars
    Renderable entries → ∀ e ∈ entries,
      ∃ e' ∈ finalize settings' (readStylesheet (renderStylesheet entries) .empty).vars,
        e'.name = e.name ∧ e.SameModes e' := by
  intro hall
  let css := "--n: 5; --a: 1; [data-mode=x] \x7b --a: var(--n); \x7d"
  let entries := finalize .default (readStylesheet css .empty).vars
  have hmode : ∃ e ∈ entries, (e.modes.get? "x").isSome = true := by decide +kernel
  have hlost : ∀ e' ∈ finalize .default (readStylesheet (renderStylesheet entries) .empty).vars,
      (e'.modes.get? "x").isNone = true := by decide +kernel
  obtain ⟨e, he, hx⟩ := hmode
  obtain ⟨e', he', -, hsame⟩ := hall css .empty .default .default
    ⟨by decide +kernel, by decide +kernel, by decide +kernel⟩ e he
  obtain ⟨s, hs⟩ := Option.isSome_iff_exists.1 hx
  have hrel := hsame "x"
  rw [hs, Option.isNone_iff_eq_none.1 (hlost e' he')] at hrel
  cases hrel

end DesignVars
