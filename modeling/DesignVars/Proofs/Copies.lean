import DesignVars.Proofs.Batch
import DesignVars.Proofs.Reimport

/-!
# The values that stored aliases hold

A stored alias holds a value of its own, and that is what a store gives for it. All imports are
into one collection here.

* `Collection.value?`, `Store.Within`: the value that a path leads to, and stores of one collection;
* `Store.get?_existing_pathOfName`, `Store.get?_existing_eq_value?`: a store gives for a variable
  the value that is stored with it;
* `value?_of_alias`: right after an import, its aliases hold the values of their targets;
* `Store.Writes`, `WrittenLast`, `exists_writtenLast`: the last import that wrote a variable;
* **`existing_of_aliasOf`**: what a store gives for an alias is the value that its target had after
  the last import of the alias;
* **`not_forall_existing`**: an import of the target alone leaves the alias with the former value.
-/

namespace DesignVars

/-! ## Stores of one collection -/

/-- The value of the variable that a path leads to. -/
def Collection.value? (c : Collection) (path : String) : Option Concrete :=
  (c.get? path).bind fun v => v.value.concrete?

/-- The store has no other collection. -/
def Store.Within (s : Store) (name : String) : Prop :=
  ∀ other, other ≠ name → s.collections.get? other = none

namespace Store

variable {s : Store} {name : String}

theorem Within.flatMap_vars (h : s.Within name) :
    s.collections.values.flatMap Collection.vars = (s.collection name).vars := by
  have hone : s.collections =
      (s.collections.get? name).elim .empty fun c => SortedMap.empty.insert name c := by
    refine SortedMap.ext_get? fun k => ?_
    by_cases hk : k = name
    · subst hk
      cases s.collections.get? k <;> simp
    · rw [h k hk]
      cases s.collections.get? name with
      | none => rfl
      | some c => rw [Option.elim_some, SortedMap.get?_insert, if_neg (Ne.symm hk)]; rfl
  unfold collection
  cases hc : s.collections.get? name with
  | none =>
    rw [hc] at hone
    rw [hone]
    rfl
  | some c =>
    rw [hc] at hone
    rw [hone]
    exact List.append_nil c.vars

theorem within_empty (name : String) : ({} : Store).Within name := fun _ _ => rfl

theorem Within.after (h : s.Within name) {i : String × Settings} (hi : i.2.collection = name) :
    (s.after i).Within name := by
  rcases s.after_cases i with ⟨summary, hr⟩ | hs
  · obtain ⟨-, hs', -⟩ := apply_eq_ok_iff.1 hr
    intro other hne
    rw [hs', SortedMap.get?_insert, hi, if_neg (Ne.symm hne)]
    exact h other hne
  · rwa [hs]

/-! ## What a store gives -/

theorem get?_existing_pathOfName (hs : s.All Stored.Coded) {n : String}
    (hn : isValidName n = true) : s.existing.get? (pathOfName n) = s.existing.get? n := by
  have hv : ∀ v ∈ s.collections.values.flatMap Collection.vars, v.Coded := fun v hv => by
    obtain ⟨c, hc, hv⟩ := List.mem_flatMap.1 hv
    exact hs c hc v hv
  unfold existing
  refine List.foldlRecOn (motive := fun t : Snapshot => t.get? (pathOfName n) = t.get? n)
    _ _ rfl fun t ht v hmem => ?_
  obtain ⟨flat, hflat, hpath, hcode⟩ := hv v hmem
  rw [Snapshot.get?_insertWithCode hn t ⟨flat, hflat, hpath, hcode⟩, Snapshot.insertWithCode,
    Option.bind_some, hcode, nameInCode?_reference hflat]
  simp only [Snapshot.get?_insert, ht]
  by_cases hp : v.name = pathOfName n
  · simp only [hp, if_true]
    split_ifs
    · cases v.value.concrete? <;> rfl
    · rfl
  · -- A name that is the path of `n` is `n` itself, and `v` would be stored under it.
    have hf : flat ≠ pathOfName n := fun hf =>
      hp (hpath.trans (congrArg pathOfName (eq_of_pathOfName_eq hn hflat hf.symm).symm))
    simp only [if_neg hp, if_neg hf]

theorem filter_name_eq {c : Collection} (hd : c.paths.Nodup) (path : String) :
    c.vars.filter (fun v => v.name = path) = (c.get? path).toList := by
  obtain ⟨vs⟩ := c
  simp only [Collection.paths, Collection.get?] at hd ⊢
  induction vs with
  | nil => rfl
  | cons v vs ih =>
    rw [List.map_cons, List.nodup_cons] at hd
    by_cases hv : v.name = path
    · have hrest : vs.filter (fun w => w.name = path) = [] := by
        rw [List.filter_eq_nil_iff]
        intro w hw hn
        exact hd.1 (List.mem_map.2 ⟨w, hw, (of_decide_eq_true hn).trans hv.symm⟩)
      simp [hv, hrest]
    · simp [hv, ih hd.2]

theorem Sound.nodup_paths (hs : s.Sound) (name : String) : (s.collection name).paths.Nodup :=
  forall_collection (Q := fun c => c.paths.Nodup) List.nodup_nil hs.distinct name

/-- A store of one collection gives for a name the value that its path leads to. -/
theorem get?_existing_eq_value? (hs : s.Sound) (hw : s.Within name) {n : String}
    (hn : isValidName n = true) :
    s.existing.get? n = (s.collection name).value? (pathOfName n) := by
  rw [get?_existing hn hs.coded, storedAt, hw.flatMap_vars,
    filter_name_eq (hs.nodup_paths name), Collection.value?]
  cases (s.collection name).get? (pathOfName n) <;> simp

theorem Sound.coded_of_mem (hs : s.Sound) {x : Stored} (hx : x ∈ (s.collection name).vars) :
    x.Coded := by
  obtain ⟨c, hc, hx⟩ := exists_mem_collection_iff.2 ⟨name, hx⟩
  exact hs.coded c hc x hx

theorem get?_existing_of_mem (hs : s.Sound) (hw : s.Within name) {x : Stored}
    (hx : x ∈ (s.collection name).vars) : s.existing.get? x.name = x.value.concrete? := by
  obtain ⟨n, hn, hpath, -⟩ := hs.coded_of_mem hx
  have hget := (Collection.get?_eq_some_iff (hs.nodup_paths name)).2 ⟨hx, rfl⟩
  rw [hpath] at hget
  rw [hpath, get?_existing_pathOfName hs.coded hn, get?_existing_eq_value? hs hw hn,
    Collection.value?, hget, Option.bind_some]

end Store

/-! ## One import -/

/-- What serves an alias of a base value has an entry with that value. -/
theorem Variable.exists_entry_of_targetSlot?_none (settings : Settings) {w : Variable}
    {c : Concrete} (h : (w.targetSlot? none).bind Slot.concrete? = some c) :
    ∃ e, w.finalized? settings = some e ∧ e.value.value.concrete? = some c := by
  obtain ⟨e, he⟩ : ∃ e, w.finalized? settings = some e := by
    rw [← Option.isSome_iff_exists, w.finalized?_isSome, w.kind?_of_targetSlot?_none h,
      Option.isSome_some]
  refine ⟨e, he, ?_⟩
  obtain ⟨base, hbase, hc⟩ := Option.bind_eq_some_iff.1 h
  rw [targetSlot?, Option.ite_none_right_eq_some, Option.some.injEq] at hbase
  obtain ⟨hd, rfl⟩ := hbase
  rw [w.value_of_finalized? he, finalBase, if_pos hd]
  exact hc

section Import

variable {s s' : Store} {css : String} {settings : Settings} {summary : Summary}
  (hi : (runImport css settings s).result = (.ok summary, s'))

include hi

/-- **Right after an import the aliases among its entries hold the values of their targets.** A
target in the stylesheet is taken in as well. Any other has its value in the store, where it
stays. -/
theorem value?_of_alias (hs : s.Reachable) (hsound : s.Sound) (hw : s.Within settings.collection)
    {e : Entry} (he : e ∈ (runImport css settings s).entries) {target : String}
    (ha : e.value.aliasOf = some target) : ∃ c, e.value.value.concrete? = some c ∧
      (s'.collection settings.collection).value? (pathOfName target) = some c := by
  obtain ⟨v, hv, hve⟩ := mem_finalize_iff.1 he
  rw [v.value_of_finalized? hve, Variable.finalBase] at ha ⊢
  split_ifs at ha with hd
  rw [if_pos hd]
  have hbase : v.slot? none = some v.base := rfl
  obtain ⟨hn, c, hc, ht⟩ := slot_of_aliasOf hv hbase ha
  refine ⟨c, Value.concrete?_eq_some_iff.2 hc, ?_⟩
  unfold Table.targetValue? at ht
  split at ht
  · rename_i w hget
    obtain rfl := Table.name_of_get? hget
    obtain ⟨e', hwe, hc'⟩ := w.exists_entry_of_targetSlot?_none settings ht
    have he' : e' ∈ (runImport css settings s).entries :=
      mem_finalize_iff.2 ⟨w, Table.mem_of_get? hget, hwe⟩
    rw [← w.name_of_finalized? hwe, ← w.path_of_finalized? hwe, Collection.value?,
      Store.get?_of_mem hi he', Option.bind_some]
    exact hc'
  · rename_i hget
    have hno : target ∉ (runImport css settings s).entries.map Entry.name := fun hmem =>
      Table.get?_eq_none_iff.1 hget ((names_finalize_sublist settings _).subset hmem)
    have hw' : s'.Within settings.collection := by
      have := hw.after (i := (css, settings)) rfl
      rwa [Store.after, hi] at this
    rw [← Store.get?_existing_eq_value? (hsound.imported hi) hw' hn,
      get?_existing_runImport hs hi hn hno]
    exact ht

end Import

/-! ## All imports -/

namespace Store

variable {s : Store} {i : String × Settings}

theorem Reachable.after (hs : s.Reachable) (i : String × Settings) : (s.after i).Reachable := by
  rcases s.after_cases i with ⟨summary, hi⟩ | h
  · exact hs.imported hi
  · rwa [h]

/-- The import takes in an entry of that path. -/
def Writes (s : Store) (i : String × Settings) (path : String) : Prop :=
  ∃ s' summary, (runImport i.1 i.2 s).result = (.ok summary, s') ∧
    path ∈ (runImport i.1 i.2 s).entries.map Entry.path

theorem get?_after_of_not_writes {path : String} (h : ¬ s.Writes i path) (name : String) :
    ((s.after i).collection name).get? path = (s.collection name).get? path := by
  rcases s.after_cases i with ⟨summary, hr⟩ | hs
  · have hno : path ∉ (runImport i.1 i.2 s).entries.map Entry.path :=
      fun hmem => h ⟨s.after i, summary, hr, hmem⟩
    obtain ⟨-, hs', -⟩ := apply_eq_ok_iff.1 hr
    rw [hs', collection_insert]
    split_ifs with hn
    · subst hn
      exact Progress.get?_foldl_step_of_notMem hno _
    · rfl
  · rw [hs]

theorem exists_entry_of_writes {path : String} (h : s.Writes i path) {x : Stored}
    (hx : ((s.after i).collection i.2.collection).get? path = some x) :
    ∃ s' summary, (runImport i.1 i.2 s).result = (.ok summary, s') ∧ s.after i = s' ∧
      ∃ e ∈ (runImport i.1 i.2 s).entries, x = .ofEntry e := by
  obtain ⟨s', summary, hr, hmem⟩ := h
  obtain ⟨e, he, rfl⟩ := List.mem_map.1 hmem
  have hafter : s.after i = s' := by rw [after, hr]
  rw [hafter, get?_of_mem hr he] at hx
  exact ⟨s', summary, hr, hafter, e, he, (Option.some.inj hx).symm⟩

theorem ofImports_concat (imports : List (String × Settings)) (i : String × Settings) :
    ofImports (imports ++ [i]) = (ofImports imports).after i := by
  rw [ofImports, List.foldl_append, List.foldl_cons, List.foldl_nil, ofImports]

theorem sound_of_imports (imports : List (String × Settings)) : (ofImports imports).Sound :=
  List.foldlRecOn imports after sound_empty fun _ hs i _ => hs.after i

theorem reachable_ofImports (imports : List (String × Settings)) : (ofImports imports).Reachable :=
  List.foldlRecOn imports after .empty fun _ hs i _ => hs.after i

theorem within_ofImports {imports : List (String × Settings)} {name : String}
    (hall : ∀ i ∈ imports, i.2.collection = name) : (ofImports imports).Within name :=
  List.foldlRecOn (motive := fun s => s.Within name) imports after (within_empty name)
    fun _ hw _ hi => hw.after (hall _ hi)

end Store

/-! ## The last import of a variable -/

/-- No import after the earlier ones writes the path. -/
def Unwritten (imports earlier : List (String × Settings)) (path : String) : Prop :=
  ∀ before i, earlier <+: before → before ++ [i] <+: imports →
    ¬ (Store.ofImports before).Writes i path

/-- The last of the earlier imports writes the path, and no import after them does. -/
structure WrittenLast (imports earlier : List (String × Settings)) (path : String) : Prop where
  among : earlier <+: imports
  writes : ∃ before i, earlier = before ++ [i] ∧ (Store.ofImports before).Writes i path
  since : Unwritten imports earlier path

section Imports

variable {imports earlier : List (String × Settings)} {i : String × Settings} {path : String}

/-- One more import writes the path, or nothing has changed since. -/
theorem Unwritten.concat (h : Unwritten imports earlier path)
    (hi : ¬ (Store.ofImports imports).Writes i path) : Unwritten (imports ++ [i]) earlier path := by
  intro before j hearlier hbefore
  rcases List.prefix_concat_iff.1 hbefore with heq | hbefore
  · obtain ⟨rfl, hj⟩ := List.append_inj' heq rfl
    obtain rfl := List.singleton_inj.1 hj
    exact hi
  · exact h before j hearlier hbefore

/-- **A path leads to what it led to after the last import that wrote it.** -/
theorem get?_of_unwritten (among : earlier <+: imports) (h : Unwritten imports earlier path)
    (name : String) : ((Store.ofImports imports).collection name).get? path =
      ((Store.ofImports earlier).collection name).get? path := by
  induction imports using List.reverseRecOn with
  | nil => rw [List.prefix_nil.1 among]
  | append_singleton imports i ih =>
    rcases List.prefix_concat_iff.1 among with rfl | among
    · rfl
    · have hno := h imports i among (List.prefix_refl _)
      rw [Store.ofImports_concat, Store.get?_after_of_not_writes hno]
      exact ih among fun before j hearlier hbefore =>
        h before j hearlier (hbefore.trans (List.prefix_append _ _))

/-- **Whatever is stored was written by some import, and by no later one.** -/
theorem exists_writtenLast {name : String} {x : Stored}
    (hx : ((Store.ofImports imports).collection name).get? path = some x) :
    ∃ earlier, WrittenLast imports earlier path := by
  induction imports using List.reverseRecOn with
  | nil => cases hx
  | append_singleton imports i ih =>
    by_cases hi : (Store.ofImports imports).Writes i path
    · refine ⟨imports ++ [i], List.prefix_refl _, ⟨imports, i, rfl, hi⟩, fun before j h h' => ?_⟩
      have := (h.trans (List.prefix_append before [j])).length_le
      have := h.length_le
      have := h'.length_le
      simp only [List.length_append, List.length_singleton] at *
      omega
    · rw [Store.ofImports_concat, Store.get?_after_of_not_writes hi] at hx
      obtain ⟨earlier, hearlier⟩ := ih hx
      exact ⟨earlier, hearlier.among.trans (List.prefix_append _ _), hearlier.writes,
        hearlier.since.concat hi⟩

variable {name : String} (hall : ∀ i ∈ imports, i.2.collection = name)

include hall

/-- **What a store gives for an alias is the value that its target had right after the last import
of the alias**, which is the value that it has unless it was written since. -/
theorem existing_of_aliasOf {x : Stored}
    (hx : x ∈ ((Store.ofImports imports).collection name).vars) (ha : x.aliasOf = some path) :
    ∃ earlier, WrittenLast imports earlier x.name ∧
      (∃ c, (Store.ofImports imports).existing.get? x.name = some c ∧
        ((Store.ofImports earlier).collection name).value? path = some c) ∧
      (Unwritten imports earlier path → (Store.ofImports imports).existing.get? x.name =
        ((Store.ofImports imports).collection name).value? path) := by
  have hget := (Collection.get?_eq_some_iff
    ((Store.sound_of_imports imports).nodup_paths name)).2 ⟨hx, rfl⟩
  obtain ⟨earlier, hlast⟩ := exists_writtenLast hget
  obtain ⟨before, i, rfl, hwrites⟩ := hlast.writes
  have hbefore : ∀ j ∈ before, j.2.collection = name := fun j hj =>
    hall j (hlast.among.subset (List.mem_append_left _ hj))
  obtain rfl := hall i (hlast.among.subset (List.mem_append_right _ List.mem_cons_self))
  rw [get?_of_unwritten hlast.among hlast.since, Store.ofImports_concat] at hget
  obtain ⟨s', summary, hr, hafter, e, he, rfl⟩ := Store.exists_entry_of_writes hwrites hget
  obtain ⟨target, htarget, rfl⟩ := Option.map_eq_some_iff.1 ha
  obtain ⟨c, hc, hvalue⟩ := value?_of_alias hr (Store.reachable_ofImports before)
    (Store.sound_of_imports before) (Store.within_ofImports hbefore) he htarget
  have hgives : (Store.ofImports imports).existing.get? (Stored.ofEntry e).name = some c :=
    (Store.get?_existing_of_mem (Store.sound_of_imports imports) (Store.within_ofImports hall)
      hx).trans hc
  rw [← hafter, ← Store.ofImports_concat] at hvalue
  refine ⟨before ++ [i], hlast, ⟨c, hgives, hvalue⟩, fun hsince => ?_⟩
  rw [hgives, ← hvalue, Collection.value?, Collection.value?, get?_of_unwritten hlast.among hsince]

end Imports

/-- A color with an alias, and then the color anew. -/
def recolored : List (String × Settings) :=
  [("--a: #000; --b: var(--a);", .default), ("--a: #fff;", .default)]

/-- A further import of the alias takes the new color over. -/
theorem existing_of_aliasOf_again :
    let imports := recolored ++ [("--b: var(--a);", .default)]
    (∀ i ∈ imports, i.2.collection = defaultCollection) ∧
      ∃ x ∈ ((Store.ofImports imports).collection defaultCollection).vars,
        x.aliasOf = some "a" ∧
        ((Store.ofImports imports).existing.get? x.name).map (fun c => (Value.concrete c).text) =
          some "#ffffff" ∧
        ∃ earlier, WrittenLast imports earlier x.name ∧
          (∃ c, (Store.ofImports imports).existing.get? x.name = some c ∧
            ((Store.ofImports earlier).collection defaultCollection).value? "a" = some c) ∧
          (Unwritten imports earlier "a" → (Store.ofImports imports).existing.get? x.name =
            ((Store.ofImports imports).collection defaultCollection).value? "a") := by
  intro imports
  have hall : ∀ i ∈ imports, i.2.collection = defaultCollection := by
    simp [imports, recolored, Settings.default]
  have stored : ∃ x ∈ ((Store.ofImports imports).collection defaultCollection).vars,
      x.aliasOf = some "a" ∧ ((Store.ofImports imports).existing.get? x.name).map
        (fun c => (Value.concrete c).text) = some "#ffffff" := by decide +kernel
  obtain ⟨x, hx, ha, htext⟩ := stored
  exact ⟨hall, x, hx, ha, htext, existing_of_aliasOf hall hx ha⟩

/-- **A store does not give for every alias the value of its target.** The target is imported alone,
and the alias keeps its copy of the former value. -/
theorem not_forall_existing : ¬ ∀ (imports : List (String × Settings)) (name : String),
    (∀ i ∈ imports, i.2.collection = name) →
      ∀ x ∈ ((Store.ofImports imports).collection name).vars, ∀ path, x.aliasOf = some path →
        (Store.ofImports imports).existing.get? x.name =
          ((Store.ofImports imports).collection name).value? path := by
  intro hall
  have hone : ∀ i ∈ recolored, i.2.collection = defaultCollection := by
    simp [recolored, Settings.default]
  have stale : ∃ x ∈ ((Store.ofImports recolored).collection defaultCollection).vars,
      x.aliasOf = some "a" ∧
      ((Store.ofImports recolored).existing.get? x.name).map (fun c => (Value.concrete c).text) ≠
        (((Store.ofImports recolored).collection defaultCollection).value? "a").map
          fun c => (Value.concrete c).text := by decide +kernel
  obtain ⟨x, hx, ha, hne⟩ := stale
  exact hne (congrArg _ (hall recolored defaultCollection hone x hx "a" ha))

end DesignVars
