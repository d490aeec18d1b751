import DesignVars.Proofs.Alias
import DesignVars.Proofs.Classification
import DesignVars.Proofs.Rendering
import DesignVars.Proofs.Table

/-!
# Reading a rendered stylesheet

A rendered stylesheet is read block by block. Between two blocks the table holds one variable for
each entry, with its values for the modes that were read so far.

* `Entry.Readable`: valid names, and values of the type of the entry whose text is read again;
* `Entry.variableOf`: the variable of an entry after the blocks of some modes;
* `next_base`, `next_mode`: what one more declaration does to a table;
* `foldl_base`, `foldl_mode`, `foldl_modes`: what a block does, and all blocks;
* `table_passOver_rendered`, `resolve_rendered`: so the table has the variables of the entries, and
  no alias waits;
* **`finalize_rendered`**: the entries are read again (`Entry.reread`), of the numbers only their
  base values.
-/

namespace DesignVars

/-! ## Entries that are read again -/

/-- What the text of a value is read as. -/
def Value.rounded : Value → Value
  | .concrete c => .concrete c.rounded
  | .alias target => .alias target

/-- A value of the type of an entry, whose text is read again. -/
def Entry.Holds (e : Entry) (v : Value) : Prop :=
  ∃ c, v = .concrete c ∧ c.kind = e.kind ∧ c.ReadsBack

/-- An entry with valid names and with values of its type that are read again. -/
structure Entry.Readable (e : Entry) : Prop where
  name : isValidName e.name = true
  base : e.Holds e.value.value
  modes : ∀ m s, e.modes.get? m = some s → isValidName m = true ∧ e.Holds s.value

/-- The variable that the base value of an entry and its values for some modes make when they are
read. Numbers do not count in mode blocks. -/
def Entry.variableOf (e : Entry) (modes : List String) : Variable where
  name := e.name
  base := { value := e.value.value.rounded }
  modes := e.modes.filterMap fun m s =>
    if m ∈ modes ∧ e.kind = .color then some { value := s.value.rounded } else none

namespace Entry

section VariableOf

variable (e : Entry)

theorem get?_modes_variableOf (modes : List String) (m : String) :
    (e.variableOf modes).modes.get? m = (e.modes.get? m).bind fun s =>
      if m ∈ modes ∧ e.kind = .color then some { value := s.value.rounded } else none :=
  SortedMap.get?_filterMap _ _ m

theorem variableOf_nil : e.variableOf [] = .ofValue e.name e.value.value.rounded none := by
  have hm : (e.variableOf []).modes = .empty := SortedMap.ext_get? fun m => by
    rw [get?_modes_variableOf]
    simp
  exact congrArg (fun modes => { e.variableOf [] with modes }) hm

variable {e} (ms : List String) {m : String}

theorem variableOf_concat_of_color {s : Slot} (hk : e.kind = .color)
    (hs : e.modes.get? m = some s) :
    e.variableOf (ms ++ [m]) = (e.variableOf ms).setMode m s.value.rounded := by
  have hm : (e.variableOf (ms ++ [m])).modes =
      (e.variableOf ms).modes.insert m { value := s.value.rounded } := by
    refine SortedMap.ext_get? fun n => ?_
    rw [SortedMap.get?_insert, get?_modes_variableOf, get?_modes_variableOf]
    by_cases hn : m = n
    · subst hn
      simp [hs, hk]
    · simp [hn, Ne.symm hn]
  exact congrArg (fun modes => { e.variableOf ms with modes }) hm

theorem variableOf_concat_of_not (h : ∀ s, e.modes.get? m = some s → e.kind ≠ .color) :
    e.variableOf (ms ++ [m]) = e.variableOf ms := by
  have hm : (e.variableOf (ms ++ [m])).modes = (e.variableOf ms).modes := by
    refine SortedMap.ext_get? fun n => ?_
    rw [get?_modes_variableOf, get?_modes_variableOf]
    cases hs : e.modes.get? n with
    | none => rfl
    | some s =>
      by_cases hn : n = m
      · subst hn
        simp [h s hs]
      · simp [hn]
  exact congrArg (fun modes => { e.variableOf ms with modes }) hm

end VariableOf

end Entry

/-! ## The pass -/

/-- The table after one more declaration. -/
def Table.next (snapshot : Snapshot) (t : Table) (d : Declaration) : Table :=
  t.accept d (d.read (t.lookup snapshot))

theorem table_passOver_eq_foldl (snapshot : Snapshot) (ds : List Declaration) :
    (passOver snapshot ds).table = ds.foldl (Table.next snapshot) .empty :=
  (List.foldl_hom Pass.table fun _ _ => rfl).symm

theorem describe_none (t : Table) (name : String) : t.describe name none = t := by
  refine Table.ext_vars ?_
  rw [Table.describe, Table.vars_modify]
  refine (List.map_congr_left fun v _ => ?_).trans (List.map_id' _)
  rw [Variable.describe, Option.or_none, ite_self]

section Pass

variable (snapshot : Snapshot) {t : Table} {name : String} {c : Concrete} (hc : c.ReadsBack)

include hc

theorem next_base (hn : name ∉ t.names) :
    (t.next snapshot ⟨name, (Value.concrete c).text, none, some ":root", none⟩).vars =
      t.vars ++ [.ofValue name (.concrete c.rounded) none] := by
  have hp : Declaration.placement
      ⟨name, (Value.concrete c).text, none, some ":root", none⟩ = .topLevel := by
    simp [Declaration.placement, ofSelector_root]
  rw [Table.next, Declaration.read, hp]
  simp only [classify_text hc, Option.elim_some]
  exact Table.vars_declare_of_not_mem hn _ none

theorem next_mode {mode : String} (hm : isValidName mode = true) (hn : name ∈ t.names) :
    t.next snapshot ⟨name, (Value.concrete c).text, none, some (modeSelector mode), none⟩ =
      c.color?.elim t fun c =>
        t.modify name (fun v => v.setMode mode (.concrete (.color c.rounded)))
          (Variable.name_setMode · mode _) := by
  have hp : Declaration.placement
      ⟨name, (Value.concrete c).text, none, some (modeSelector mode), none⟩ = .mode mode := by
    simp [Declaration.placement,
      ofSelector_modeSelector (isQuotable_of_isValidName hm) (isAllBlank_of_isValidName hm)]
  rw [Table.next, Declaration.read, hp]
  simp only [classifyMode_text hc]
  cases c with
  | number x => rfl
  | color c =>
    show ((t.setMode name mode (.concrete (.color c.rounded))).describe name none) = _
    rw [describe_none, Table.setMode, Table.upsert_of_mem t _ _ hn]
    rfl

end Pass

/-! ## Blocks -/

theorem modify_middle {t : Table} {vs ws : List Variable} {v : Variable}
    (ht : t.vars = vs ++ v :: ws) {f : Variable → Variable} (hf : ∀ v, (f v).name = v.name) :
    (t.modify v.name f hf).vars = vs ++ f v :: ws := by
  have hd := t.distinct
  rw [Table.Distinct, Table.names, ht, List.map_append, List.map_cons] at hd
  obtain ⟨-, hcons, hdis⟩ := List.nodup_append.1 hd
  have hid : ∀ us : List Variable, v.name ∉ us.map Variable.name →
      us.map (fun u => if u.name = v.name then f u else u) = us := by
    intro us hu
    have hne : ∀ u ∈ us, (if u.name = v.name then f u else u) = u := fun u hmem =>
      if_neg fun (h : u.name = v.name) => hu (h ▸ List.mem_map_of_mem hmem)
    exact (List.map_congr_left hne).trans (List.map_id' us)
  rw [Table.vars_modify, ht, List.map_append, List.map_cons,
    hid vs fun h => hdis _ h _ List.mem_cons_self rfl, hid ws (List.nodup_cons.1 hcons).1,
    if_pos rfl]

section Blocks

variable {snapshot : Snapshot} (before : List Entry) {after : List Entry} {t : Table}

/-- The block of base values makes a variable for each entry. -/
theorem foldl_base (h : ∀ e ∈ after, e.Readable) (hd : ((before ++ after).map Entry.name).Nodup)
    (ht : t.vars = before.map (Entry.variableOf · [])) :
    ((blockDeclarations ":root" (after.map fun e => (e.name, e.value.value))).foldl
      (Table.next snapshot) t).vars = (before ++ after).map (Entry.variableOf · []) := by
  induction after generalizing before t with
  | nil => rw [List.append_nil, ← ht]; rfl
  | cons e es ih =>
    obtain ⟨he, h⟩ := List.forall_mem_cons.1 h
    obtain ⟨c, hv, -, hc⟩ := he.base
    have hn : e.name ∉ t.names := by
      rw [List.map_append, List.map_cons] at hd
      rw [Table.names, ht, List.map_map]
      exact fun hb => (List.nodup_append.1 hd).2.2 _ hb _ List.mem_cons_self rfl
    have hvar : Variable.ofValue e.name (.concrete c.rounded) none = e.variableOf [] := by
      rw [e.variableOf_nil, hv]
      rfl
    have hnext := next_base snapshot hc hn
    rw [← hv, ht, hvar] at hnext
    rw [List.append_cons before e es] at hd ⊢
    refine ih (before ++ [e]) h hd ?_
    rw [List.map_append]
    exact hnext

theorem next_variableOf {e : Entry} (he : e.Readable) {mode : String} {s : Slot}
    (hs : e.modes.get? mode = some s) (ms : List String) {vs ws : List Variable}
    (ht : t.vars = vs ++ e.variableOf ms :: ws) :
    (t.next snapshot ⟨e.name, s.value.text, none, some (modeSelector mode), none⟩).vars =
      vs ++ e.variableOf (ms ++ [mode]) :: ws := by
  obtain ⟨hm, c, hc, hk, hreads⟩ := he.modes mode s hs
  have hmem : e.name ∈ t.names := by
    rw [Table.names, ht]
    exact List.mem_map.2 ⟨e.variableOf ms, by simp, rfl⟩
  rw [hc, next_mode snapshot hreads hm hmem]
  cases c with
  | number x =>
    have hvar : e.variableOf (ms ++ [mode]) = e.variableOf ms :=
      Entry.variableOf_concat_of_not ms fun _ _ h => by
        rw [h] at hk
        cases hk
    rw [hvar]
    exact ht
  | color c =>
    have hvar := Entry.variableOf_concat_of_color ms hk.symm hs
    rw [hvar, hc]
    exact modify_middle (v := e.variableOf ms) ht _

theorem foldl_mode (mode : String) (ms : List String) (h : ∀ e ∈ after, e.Readable)
    (ht : t.vars =
      before.map (Entry.variableOf · (ms ++ [mode])) ++ after.map (Entry.variableOf · ms)) :
    ((blockDeclarations (modeSelector mode) (valuesOfMode after mode)).foldl
      (Table.next snapshot) t).vars =
        (before ++ after).map (Entry.variableOf · (ms ++ [mode])) := by
  -- the entries before have their values for the mode, those after do not have them yet
  induction after generalizing before t with
  | nil =>
    rw [List.map_nil, List.append_nil] at ht
    rw [List.append_nil]
    exact ht
  | cons e es ih =>
    obtain ⟨he, h⟩ := List.forall_mem_cons.1 h
    rw [List.append_cons before e es]
    cases hs : e.modes.get? mode with
    | none =>
      have hvalues : valuesOfMode (e :: es) mode = valuesOfMode es mode :=
        List.filterMap_cons_none (by rw [hs]; rfl)
      have hvar : e.variableOf (ms ++ [mode]) = e.variableOf ms :=
        Entry.variableOf_concat_of_not ms (by rw [hs]; exact nofun)
      rw [hvalues]
      refine ih (before ++ [e]) h ?_
      rw [ht, List.map_append, List.append_assoc, List.map_cons, List.map_singleton, hvar,
        List.singleton_append]
    | some s =>
      have hvalues : valuesOfMode (e :: es) mode = (e.name, s.value) :: valuesOfMode es mode :=
        List.filterMap_cons_some (by rw [hs]; rfl)
      rw [hvalues]
      refine ih (before ++ [e]) h ?_
      rw [List.map_append, List.append_assoc]
      exact next_variableOf he hs ms ht

/-- The blocks of all modes give each entry of a color its values. -/
theorem foldl_modes {entries : List Entry} (h : ∀ e ∈ entries, e.Readable)
    (modes ms : List String) (ht : t.vars = entries.map (Entry.variableOf · ms)) :
    ((modes.flatMap fun m => blockDeclarations (modeSelector m) (valuesOfMode entries m)).foldl
      (Table.next snapshot) t).vars = entries.map (Entry.variableOf · (ms ++ modes)) := by
  induction modes generalizing ms t with
  | nil => rw [List.append_nil, ← ht]; rfl
  | cons m modes ih =>
    rw [List.flatMap_cons, List.foldl_append, List.append_cons]
    exact ih _ (foldl_mode [] m ms h ht)

end Blocks

/-! ## The report -/

section Report

variable {entries : List Entry} (h : ∀ e ∈ entries, e.Readable)

theorem Entry.Holds.isPlain_text {e : Entry} {v : Value} (hv : e.Holds v) :
    ∀ c ∈ v.text.toList, isPlain c = true ∧ Text.isBlank c = false := by
  obtain ⟨c, rfl, -, hc⟩ := hv
  exact DesignVars.isPlain_text hc

theorem concrete_of_slot?_variableOf {e : Entry} (he : e.Readable) {ms : List String}
    {mode : Option String} {s : Slot} (hs : (e.variableOf ms).slot? mode = some s) :
    ∃ c, s.value = .concrete c := by
  cases mode with
  | none =>
    obtain ⟨c, hc, -⟩ := he.base
    cases hs
    exact ⟨c.rounded, by rw [Entry.variableOf, hc]; rfl⟩
  | some m =>
    rw [Variable.slot?, Entry.get?_modes_variableOf, Option.bind_eq_some_iff] at hs
    obtain ⟨s₀, hs₀, hs⟩ := hs
    obtain ⟨-, c, hc, -⟩ := he.modes m s₀ hs₀
    split_ifs at hs
    cases hs
    exact ⟨c.rounded, by rw [hc]; rfl⟩

theorem aliases_variableOf {e : Entry} (he : e.Readable) (ms : List String) :
    (e.variableOf ms).aliases = [] := by
  rw [List.eq_nil_iff_forall_not_mem]
  intro a ha
  obtain ⟨-, s, hs, hv⟩ := Variable.mem_aliases_iff.1 ha
  obtain ⟨c, hc⟩ := concrete_of_slot?_variableOf he hs
  rw [hc] at hv
  cases hv

include h

theorem scan_readable : scan (renderStylesheet entries) =
    blockDeclarations ":root" (entries.map fun e => (e.name, e.value.value)) ++
      (modeNames entries).flatMap fun m =>
        blockDeclarations (modeSelector m) (valuesOfMode entries m) := by
  refine scan_renderStylesheet (fun e he => ⟨(h e he).name, (h e he).base.isPlain_text⟩) ?_
  intro e he m s hs
  obtain ⟨hm, hv⟩ := (h e he).modes m s hs
  exact ⟨hm, (h e he).name, hv.isPlain_text⟩

/-- A pass over a rendered stylesheet makes a variable of each entry. -/
theorem table_passOver_rendered (hd : (entries.map Entry.name).Nodup) (snapshot : Snapshot) :
    (passOver snapshot (scan (renderStylesheet entries))).table.vars =
      entries.map (Entry.variableOf · (modeNames entries)) := by
  rw [table_passOver_eq_foldl, scan_readable h, List.foldl_append]
  exact foldl_modes h (modeNames entries) [] (foldl_base [] h hd rfl)

theorem resolve_rendered (snapshot : Snapshot) {t : Table} {ms : List String}
    (ht : t.vars = entries.map (Entry.variableOf · ms)) : resolve t snapshot = ⟨t, [], 0⟩ := by
  have ha : t.aliases = [] := by
    rw [Table.aliases, ht, List.flatMap_eq_nil_iff]
    intro v hv
    obtain ⟨e, he, rfl⟩ := List.mem_map.1 hv
    exact aliases_variableOf (h e he) ms
  rw [resolve, ha]
  rfl

end Report

/-! ## Entries -/

/-- The entry that is read for a rendered one. Numbers have no modes then. -/
def Entry.reread (settings : Settings) (e : Entry) : Entry where
  name := e.name
  path := pathOfName e.name
  kind := e.kind
  value := { value := e.value.value.rounded }
  modes := e.modes.filterMap fun _ s =>
    if e.kind = .color then some { value := s.value.rounded } else none
  description := none
  scopes := scopesFor settings e.name e.kind

theorem Entry.Holds.kind?_rounded {e : Entry} {v : Value} (hv : e.Holds v) :
    (Slot.mk v.rounded none).kind? = some e.kind := by
  obtain ⟨c, rfl, hk, -⟩ := hv
  exact congrArg some ((kind_rounded c).trans hk)

theorem finalized?_variableOf (settings : Settings) {e : Entry} (he : e.Readable)
    {ms : List String} (hms : ∀ m s, e.modes.get? m = some s → m ∈ ms) :
    (e.variableOf ms).finalized? settings = some (e.reread settings) := by
  have hk : (e.variableOf ms).kind? = some e.kind := he.base.kind?_rounded
  have hm : (e.variableOf ms).modesOf e.kind = (e.reread settings).modes := by
    refine SortedMap.ext_get? fun m => ?_
    rw [Variable.modesOf, SortedMap.get?_filterMap, Entry.get?_modes_variableOf, Entry.reread,
      SortedMap.get?_filterMap]
    cases hs : e.modes.get? m with
    | none => rfl
    | some s =>
      by_cases hc : e.kind = .color
      · simp [hms m s hs, hc, (he.modes m s hs).2.kind?_rounded]
      · simp [hc]
  rw [Variable.finalized?, hk, Option.map_some, hm]
  rfl

section Entries

variable {entries : List Entry} (h : ∀ e ∈ entries, e.Readable)
  (hd : (entries.map Entry.name).Nodup) (snapshot : Snapshot)

include h hd

theorem unresolved_rendered :
    (readStylesheet (renderStylesheet entries) snapshot).unresolved = [] := by
  rw [readStylesheet, Report.unresolved,
    resolve_rendered h _ (table_passOver_rendered h hd snapshot)]

/-- **A rendered stylesheet gives its entries again**, of the numbers only their base values. -/
theorem finalize_rendered (settings : Settings) :
    finalize settings (readStylesheet (renderStylesheet entries) snapshot).vars =
      entries.map (Entry.reread settings) := by
  have hm : ∀ e ∈ entries, ∀ m s, e.modes.get? m = some s → m ∈ modeNames entries :=
    fun e he m s hs => mem_modeNames_iff.2 ⟨e, he, s, hs⟩
  have hf : ∀ e ∈ entries, (e.variableOf (modeNames entries)).finalized? settings =
      some (e.reread settings) := fun e he => finalized?_variableOf settings (h e he) (hm e he)
  have ht := table_passOver_rendered h hd snapshot
  rw [readStylesheet, Report.vars, resolve_rendered h snapshot ht, ht, finalize,
    List.filterMap_map, ← List.filterMap_eq_map]
  exact List.filterMap_congr hf

end Entries

end DesignVars
