import DesignVars.Proofs.Name
import DesignVars.Store

/-!
# Taking entries into a store

* `Store.Reachable`: the stores that imports make;
* `Progress`, `Progress.step`: one collection while entries are written into it;
* `get?_foldl_step`, `foldl_step_of_present`: entries of different paths are all there afterwards,
  and entries that are there already change nothing;
* `runOn_checkAll`, `runOn_writeEntries`: the two passes over the entries, of which the first leaves
  the store as it is; **`Store.apply_eq`**: one after the other;
* `Store.All.apply`, `Store.storedAt_apply`: a property of all stored variables is preserved, and
  what is stored under other paths stays;
* **`Store.apply_again`**: taking the same entries in again only counts them;
* `Stored.Coded`, **`Store.get?_existing`**: a variable of a store is found under its valid name,
  and only what is stored under the path of that name decides what is found.
-/

namespace DesignVars

/-- The stores that imports make out of an empty one. -/
inductive Store.Reachable : Store → Prop
  | empty : Store.Reachable {}
  | imported {s s' : Store} {css : String} {settings : Settings} {summary : Summary}
      (h : s.Reachable) (hi : (runImport css settings s).result = (.ok summary, s')) :
      Store.Reachable s'

/-- All stored variables have a property. -/
def Store.All (Q : Stored → Prop) (s : Store) : Prop :=
  ∀ c ∈ s.collections.values, ∀ v ∈ c.vars, Q v

/-- What is stored under a path, one collection after the other. -/
def Store.storedAt (s : Store) (path : String) : List Stored :=
  (s.collections.values.flatMap Collection.vars).filter fun v => v.name = path

/-! ## Putting variables into a collection -/

section Put

variable {v : Stored}

theorem mem_putStored {w : Stored} {ws : List Stored} (h : w ∈ putStored v ws) :
    w = v ∨ w ∈ ws := by
  induction ws with
  | nil => exact .inl (List.mem_singleton.1 h)
  | cons x xs ih =>
    unfold putStored at h
    split_ifs at h
    · exact (List.mem_cons.1 h).imp_right (List.mem_cons_of_mem x)
    · rcases List.mem_cons.1 h with rfl | h
      · exact .inr List.mem_cons_self
      · exact (ih h).imp_right (List.mem_cons_of_mem x)

theorem Collection.get?_put (c : Collection) (path : String) :
    (c.put v).get? path = if v.name = path then some v else c.get? path := by
  obtain ⟨ws⟩ := c
  simp only [put, get?]
  induction ws with
  | nil => by_cases h : v.name = path <;> simp [putStored, h]
  | cons w ws ih =>
    unfold putStored
    by_cases hw : w.name = v.name
    · rw [if_pos hw]
      by_cases h : v.name = path <;> simp [hw, h]
    · rw [if_neg hw, List.find?_cons, ih, List.find?_cons]
      cases hp : w.name == path with
      | true =>
        have hv : v.name ≠ path := fun hv => hw ((beq_iff_eq.1 hp).trans hv.symm)
        exact (if_neg hv).symm
      | false => rfl

theorem Collection.put_eq_self {c : Collection} (h : c.get? v.name = some v) : c.put v = c := by
  obtain ⟨ws⟩ := c
  simp only [put, get?, mk.injEq] at h ⊢
  induction ws with
  | nil => cases h
  | cons w ws ih =>
    unfold putStored
    by_cases hw : w.name = v.name
    · simp_all
    · rw [List.find?_cons_of_neg (by simpa using hw)] at h
      rw [if_neg hw, ih h]

theorem filter_putStored {path : String} (h : v.name ≠ path) (ws : List Stored) :
    (putStored v ws).filter (fun w => w.name = path) = ws.filter fun w => w.name = path := by
  induction ws with
  | nil => simp [putStored, h]
  | cons w ws ih =>
    unfold putStored
    by_cases hw : w.name = v.name
    · have hp : w.name ≠ path := hw ▸ h
      simp [hw, h]
    · simp only [if_neg hw, List.filter_cons, ih]

end Put

/-! ## Taking entries in -/

/-- A collection while entries are taken in, with the counts so far. -/
structure Progress where
  collection : Collection
  added : Nat := 0
  updated : Nat := 0

namespace Progress

/-- One more entry, which replaces the variable of its path or comes last. -/
def step (p : Progress) (e : Entry) : Progress :=
  let c := p.collection.put (.ofEntry e)
  if (p.collection.get? e.path).isSome then ⟨c, p.added, p.updated + 1⟩
  else ⟨c, p.added + 1, p.updated⟩

theorem collection_step (p : Progress) (e : Entry) :
    (p.step e).collection = p.collection.put (.ofEntry e) := by
  unfold step
  split_ifs <;> rfl

section Foldl

variable {entries : List Entry}

theorem foldl_step_all {Q : Stored → Prop} (he : ∀ e ∈ entries, Q (.ofEntry e)) {p : Progress}
    (hp : ∀ v ∈ p.collection.vars, Q v) :
    ∀ v ∈ (entries.foldl step p).collection.vars, Q v := by
  induction entries generalizing p with
  | nil => exact hp
  | cons e es ih =>
    refine ih (fun e' he' => he e' (List.mem_cons_of_mem e he')) fun v hv => ?_
    rw [collection_step] at hv
    rcases mem_putStored hv with rfl | hv
    · exact he e List.mem_cons_self
    · exact hp v hv

theorem get?_foldl_step_of_notMem {path : String} (h : path ∉ entries.map Entry.path)
    (p : Progress) : (entries.foldl step p).collection.get? path = p.collection.get? path := by
  induction entries generalizing p with
  | nil => rfl
  | cons e es ih =>
    rw [List.map_cons, List.mem_cons, not_or] at h
    rw [List.foldl_cons, ih h.2, collection_step, Collection.get?_put]
    exact if_neg (Ne.symm h.1)

theorem get?_foldl_step (hd : (entries.map Entry.path).Nodup) (p : Progress) :
    ∀ e ∈ entries, (entries.foldl step p).collection.get? e.path = some (.ofEntry e) := by
  induction entries generalizing p with
  | nil => exact nofun
  | cons e es ih =>
    rw [List.map_cons, List.nodup_cons] at hd
    rw [List.forall_mem_cons]
    refine ⟨?_, ih hd.2 _⟩
    rw [List.foldl_cons, get?_foldl_step_of_notMem hd.1, collection_step, Collection.get?_put]
    exact if_pos rfl

/-- Entries that are there already are counted as updates and change nothing. -/
theorem foldl_step_of_present {c : Collection}
    (h : ∀ e ∈ entries, c.get? e.path = some (.ofEntry e)) (added updated : Nat) :
    entries.foldl step ⟨c, added, updated⟩ = ⟨c, added, updated + entries.length⟩ := by
  induction entries generalizing updated with
  | nil => rfl
  | cons e es ih =>
    obtain ⟨he, h⟩ := List.forall_mem_cons.1 h
    have hput : c.put (.ofEntry e) = c := Collection.put_eq_self he
    have hs : step ⟨c, added, updated⟩ e = ⟨c, added, updated + 1⟩ := by
      rw [step, hput, he]
      rfl
    rw [List.foldl_cons, hs, ih h, List.length_cons, Nat.add_assoc, Nat.add_comm 1]

theorem filter_foldl_step {path : String} (h : path ∉ entries.map Entry.path) (p : Progress) :
    (entries.foldl step p).collection.vars.filter (fun w => w.name = path) =
      p.collection.vars.filter fun w => w.name = path := by
  induction entries generalizing p with
  | nil => rfl
  | cons e es ih =>
    rw [List.map_cons, List.mem_cons, not_or] at h
    rw [List.foldl_cons, ih h.2, collection_step]
    exact filter_putStored (Ne.symm h.1) p.collection.vars

end Foldl

end Progress

namespace Store

theorem collection_insert (s : Store) (name other : String) (c : Collection) :
    (⟨s.collections.insert name c⟩ : Store).collection other =
      if name = other then c else s.collection other := by
  unfold collection
  rw [SortedMap.get?_insert]
  split_ifs <;> rfl

theorem collection_insert_self (s : Store) (name : String) (c : Collection) :
    (⟨s.collections.insert name c⟩ : Store).collection name = c :=
  (s.collection_insert name name c).trans (if_pos rfl)

section Apply

variable {s s' : Store} {name : String} {entries : List Entry} {summary : Summary}

/-- What follows a refusal is not run, and finds the store as it was left otherwise. -/
theorem runOn_bind {α β : Type} (x : StoreM α) (f : α → StoreM β) (s : Store) :
    (x >>= f).runOn s = match x.runOn s with
      | (.error m, s') => (.error m, s')
      | (.ok a, s') => (f a).runOn s' := by
  unfold StoreM.runOn
  rw [ExceptT.run_bind, StateT.run_bind, Id.run_bind]
  obtain ⟨_ | _, _⟩ := (x.run.run s).run <;> rfl

theorem runOn_checkAll (c : Collection) (entries : List Entry) (s : Store) :
    (checkAll c entries).runOn s =
      ((entries.findSome? c.mismatch?).elim (.ok ()) .error, s) := by
  induction entries with
  | nil => rfl
  | cons e es ih =>
    rw [checkAll, List.findSome?_cons]
    cases c.mismatch? e with
    | some m => rfl
    | none => exact ih

theorem runOn_writeEntry (s : Store) (name : String) (p : Progress) (e : Entry) :
    (writeEntry name ⟨name, p.added, p.updated⟩ e).runOn
        ⟨s.collections.insert name p.collection⟩ =
      (.ok ⟨name, (p.step e).added, (p.step e).updated⟩,
        ⟨s.collections.insert name (p.step e).collection⟩) := by
  have hrun (s : Store) (summary : Summary) : (writeEntry name summary e).runOn s =
      (.ok (if ((s.collection name).get? e.path).isSome
          then { summary with updated := summary.updated + 1 }
          else { summary with added := summary.added + 1 }),
        ⟨s.collections.insert name ((s.collection name).put (.ofEntry e))⟩) := rfl
  rw [hrun, collection_insert_self, SortedMap.insert_insert, Progress.step]
  split_ifs <;> rfl

theorem runOn_writeEntries (s : Store) (name : String) (entries : List Entry) (p : Progress) :
    (entries.foldlM (writeEntry name) ⟨name, p.added, p.updated⟩).runOn
        ⟨s.collections.insert name p.collection⟩ =
      (.ok ⟨name, (entries.foldl Progress.step p).added, (entries.foldl Progress.step p).updated⟩,
        ⟨s.collections.insert name (entries.foldl Progress.step p).collection⟩) := by
  induction entries generalizing p with
  | nil => rfl
  | cons e es ih =>
    rw [List.foldlM_cons, runOn_bind, runOn_writeEntry]
    exact ih (p.step e)

/-- **One of the entries is refused before anything is written, or all of them are written.** -/
theorem apply_eq (s : Store) (name : String) (entries : List Entry) : s.apply name entries =
    match entries.findSome? (s.collection name).mismatch? with
    | some m => (.error m, s)
    | none =>
      let p := entries.foldl Progress.step { collection := s.collection name }
      (.ok ⟨name, p.added, p.updated⟩, ⟨s.collections.insert name p.collection⟩) := by
  have hwrite := runOn_writeEntries s name entries { collection := s.collection name }
  have hcheck := runOn_checkAll (s.collection name) entries s
  have happly : s.apply name entries = (checkAll (s.collection name) entries >>= fun _ => do
      modify fun s => ⟨s.collections.insert name (s.collection name)⟩
      entries.foldlM (writeEntry name) ⟨name, 0, 0⟩).runOn s := rfl
  rw [happly, runOn_bind, hcheck]
  cases entries.findSome? (s.collection name).mismatch? with
  | some m => rfl
  | none => exact hwrite

/-- Entries are taken in unless one of them has another type than what it would replace. -/
theorem apply_eq_ok_iff : s.apply name entries = (.ok summary, s') ↔
    entries.findSome? (s.collection name).mismatch? = none ∧
      s' = ⟨s.collections.insert name
        (entries.foldl Progress.step { collection := s.collection name }).collection⟩ ∧
      summary = ⟨name, (entries.foldl Progress.step { collection := s.collection name }).added,
        (entries.foldl Progress.step { collection := s.collection name }).updated⟩ := by
  rw [apply_eq]
  cases entries.findSome? (s.collection name).mismatch? <;> simp [eq_comm, and_comm]

theorem apply_eq_error_iff {m : TypeMismatch} : s.apply name entries = (.error m, s') ↔
    entries.findSome? (s.collection name).mismatch? = some m ∧ s' = s := by
  rw [apply_eq]
  cases entries.findSome? (s.collection name).mismatch? <;> simp [eq_comm]

theorem forall_collection {Q : Collection → Prop} (hempty : Q {})
    (h : ∀ c ∈ s.collections.values, Q c) (name : String) : Q (s.collection name) := by
  unfold collection
  cases hc : s.collections.get? name with
  | none => exact hempty
  | some c => exact h c ((s.collections.mem_values_iff c).2 ⟨name, hc⟩)

theorem forall_apply {Q : Collection → Prop} (h : ∀ c ∈ s.collections.values, Q c)
    (hnew : Q (entries.foldl Progress.step { collection := s.collection name }).collection)
    (ha : s.apply name entries = (.ok summary, s')) : ∀ c ∈ s'.collections.values, Q c := by
  obtain ⟨-, rfl, -⟩ := apply_eq_ok_iff.1 ha
  intro c hc
  obtain ⟨k, hk⟩ := (SortedMap.mem_values_iff _ c).1 hc
  rw [SortedMap.get?_insert] at hk
  split_ifs at hk
  · cases hk
    exact hnew
  · exact h c ((s.collections.mem_values_iff c).2 ⟨k, hk⟩)

theorem All.apply {Q : Stored → Prop} (h : s.All Q) (he : ∀ e ∈ entries, Q (.ofEntry e))
    (ha : s.apply name entries = (.ok summary, s')) : s'.All Q :=
  forall_apply h (Progress.foldl_step_all he (forall_collection nofun h name)) ha

theorem storedAt_apply {path : String} (h : path ∉ entries.map Entry.path)
    (ha : s.apply name entries = (.ok summary, s')) : s'.storedAt path = s.storedAt path := by
  obtain ⟨-, rfl, -⟩ := apply_eq_ok_iff.1 ha
  simp only [storedAt, List.filter_flatMap]
  refine SortedMap.flatMap_values_insert _ name _ _ ?_
  rw [Progress.filter_foldl_step h, collection]
  cases s.collections.get? name <;> rfl

/-- **Taking the same entries in again only counts them.** -/
theorem apply_again (hd : (entries.map Entry.path).Nodup)
    (ha : s.apply name entries = (.ok summary, s')) :
    s'.apply name entries = (.ok ⟨name, 0, entries.length⟩, s') := by
  obtain ⟨-, rfl, -⟩ := apply_eq_ok_iff.1 ha
  generalize hp : entries.foldl Progress.step { collection := s.collection name } = p
  have hin : ∀ e ∈ entries, p.collection.get? e.path = some (.ofEntry e) :=
    hp ▸ Progress.get?_foldl_step hd _
  have hstep : entries.foldl Progress.step { collection := p.collection } =
      ⟨p.collection, 0, entries.length⟩ := by
    rw [Progress.foldl_step_of_present hin, Nat.zero_add]
  rw [apply_eq_ok_iff, collection_insert_self, hstep, SortedMap.insert_insert]
  refine ⟨?_, rfl, rfl⟩
  rw [List.findSome?_eq_none_iff]
  intro e he
  rw [Collection.mismatch?, hin e he, Option.bind_some]
  exact if_pos rfl

end Apply

end Store

/-! ## Looking stored variables up -/

/-- The name of a stored variable is the path of a valid name, to which its code syntax refers. -/
def Stored.Coded (v : Stored) : Prop :=
  ∃ name, isValidName name = true ∧ v.name = pathOfName name ∧ v.codeSyntax = reference name

theorem Stored.coded_ofEntry {css : String} {snapshot : Snapshot} {settings : Settings} {e : Entry}
    (h : e ∈ finalize settings (readStylesheet css snapshot).vars) : (Stored.ofEntry e).Coded :=
  ⟨e.name, isValidName_of_mem_finalize h, path_of_mem_finalize h, rfl⟩

theorem Store.Reachable.coded {s : Store} (h : s.Reachable) : s.All Stored.Coded := by
  induction h with
  | empty => exact nofun
  | imported _ hi ih => exact ih.apply (fun e he => Stored.coded_ofEntry he) hi

section Existing

variable {name : String} (hn : isValidName name = true)

theorem Snapshot.get?_insert (t : Snapshot) (key : String) (value : Value) (n : String) :
    (t.insert key value).get? n = if key = n then value.concrete?.or (t.get? n) else t.get? n := by
  rcases value with c | target
  · exact SortedMap.get?_insert t.entries key n c
  · exact (ite_self _).symm

include hn

/-- A stored variable counts for the valid name that its path is of, and for no other. -/
theorem Snapshot.get?_insertWithCode (t : Snapshot) {v : Stored} (hv : v.Coded) :
    (t.insertWithCode v.name (some v.codeSyntax) v.value).get? name =
      if v.name = pathOfName name then v.value.concrete?.or (t.get? name) else t.get? name := by
  obtain ⟨flat, hflat, hpath, hcode⟩ := hv
  rw [insertWithCode, Option.bind_some, hcode, nameInCode?_reference hflat]
  simp only [get?_insert, hpath]
  by_cases hp : pathOfName flat = name
  · have hf : flat = name := eq_of_pathOfName_eq hflat hn hp
    subst hf
    cases v.value.concrete? <;> simp [hp]
  · by_cases hf : flat = name
    · simp [hf, hf ▸ hp]
    · have hpp : pathOfName flat ≠ pathOfName name := fun h => hf (pathOfName_injOn hflat hn h)
      simp [hp, hf, hpp]

theorem Snapshot.get?_foldl_insertWithCode {vars : List Stored} (hv : ∀ v ∈ vars, v.Coded)
    (t : Snapshot) :
    (vars.foldl (fun t v => t.insertWithCode v.name (some v.codeSyntax) v.value) t).get? name =
      (vars.filter fun v => v.name = pathOfName name).foldl
        (fun found v => v.value.concrete?.or found) (t.get? name) := by
  induction vars generalizing t with
  | nil => rfl
  | cons v vars ih =>
    obtain ⟨hc, hv⟩ := List.forall_mem_cons.1 hv
    rw [List.foldl_cons, ih hv, get?_insertWithCode hn t hc, List.filter_cons]
    by_cases hp : v.name = pathOfName name <;> simp [hp]

/-- **What a store gives for a valid name is the last value among what is stored under its
path.** -/
theorem Store.get?_existing {s : Store} (hs : s.All Stored.Coded) :
    s.existing.get? name = (s.storedAt (pathOfName name)).foldl
      (fun found v => v.value.concrete?.or found) none := by
  refine Snapshot.get?_foldl_insertWithCode hn (fun v hv => ?_) .empty
  obtain ⟨c, hc, hv⟩ := List.mem_flatMap.1 hv
  exact hs c hc v hv

end Existing

end DesignVars
