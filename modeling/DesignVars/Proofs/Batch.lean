import DesignVars.Proofs.History

/-!
# Taking in many entries

All entries are checked before any of them is taken in. Then they are put into a collection that
grows with them, so that the later of two entries of one path replaces the earlier.

* `Collection.paths`, `Collection.newPaths`, `lastOf?`: the paths that are there and those that
  entries add, and the entry that counts for a path;
* `Progress.paths_taken`, `Progress.get?_taken`, `Progress.added_taken`: a collection after entries,
  by its paths, by what they lead to, and by the counts;
* `Collection.Suits`, `Collection.FirstMismatch`: entries of the types that are stored, and the
  first one that is not;
* `Store.TakenIn`, **`apply_all_or_none`**: the entries are all taken in if they suit; otherwise the
  first that does not is reported, and the store is as it was.
-/

namespace DesignVars

/-! ## Paths -/

namespace Collection

/-- The paths of the variables, in order. -/
def paths (c : Collection) : List String := c.vars.map Stored.name

/-- The paths of entries that are not there yet, in the order in which they come first. -/
def newPaths (c : Collection) (entries : List Entry) : List String :=
  ((entries.map Entry.path).filter fun path => path ∉ c.paths).eraseDups

variable {c : Collection} {path : String}

theorem get?_eq_none_iff : c.get? path = none ↔ path ∉ c.paths := by
  simp only [get?, List.find?_eq_none, beq_iff_eq, paths, List.mem_map, not_exists, not_and]

theorem mem_paths_of_get? {v : Stored} (h : c.get? path = some v) : path ∈ c.paths :=
  name_of_get? h ▸ List.mem_map_of_mem (List.mem_of_find?_eq_some h)

theorem get?_eq_some_iff (hd : c.paths.Nodup) {v : Stored} :
    c.get? path = some v ↔ v ∈ c.vars ∧ v.name = path := by
  constructor
  · intro h
    exact ⟨List.mem_of_find?_eq_some h, name_of_get? h⟩
  · rintro ⟨hv, rfl⟩
    cases h : c.get? v.name with
    | none => exact absurd (List.mem_map_of_mem hv) (get?_eq_none_iff.1 h)
    | some w =>
      rw [List.inj_on_of_nodup_map hd (List.mem_of_find?_eq_some h) hv (name_of_get? h)]

theorem paths_put (v : Stored) :
    (c.put v).paths = c.paths ++ [v.name].filter fun path => path ∉ c.paths := by
  rw [paths, map_put Stored.name fun w hw => name_of_get? hw, ← paths]
  congr 1
  cases h : c.get? v.name with
  | none => simp [get?_eq_none_iff.1 h]
  | some w => simp [mem_paths_of_get? h]

theorem newPaths_concat (entries : List Entry) (e : Entry) : c.newPaths (entries ++ [e]) =
    c.newPaths entries ++ [e.path].filter fun path => path ∉ c.paths ++ c.newPaths entries := by
  unfold newPaths
  rw [List.map_append, List.filter_append, List.map_singleton]
  by_cases he : e.path ∈ c.paths
  · simp [he]
  · rw [List.filter_singleton, decide_eq_true he, cond_true, eraseDups_concat]
    congr 1
    refine List.filter_congr fun path hp => ?_
    rw [List.mem_singleton.1 hp, decide_eq_decide, List.mem_append]
    exact not_congr (or_iff_right he).symm

end Collection

/-- The last of some entries that has a path. -/
def lastOf? (entries : List Entry) (path : String) : Option Entry :=
  entries.reverse.find? fun e => e.path = path

theorem lastOf?_concat (entries : List Entry) (e : Entry) (path : String) :
    lastOf? (entries ++ [e]) path = if e.path = path then some e else lastOf? entries path := by
  unfold lastOf?
  rw [List.reverse_append, List.reverse_singleton, List.singleton_append]
  split_ifs with h <;> simp [h]

/-! ## Entries one after the other -/

namespace Progress

variable (c : Collection) (entries : List Entry)

/-- What is there after some entries. -/
def taken : Progress := entries.foldl step { collection := c }

theorem taken_concat (e : Entry) : taken c (entries ++ [e]) = (taken c entries).step e := by
  rw [taken, List.foldl_append, List.foldl_cons, List.foldl_nil, taken]

/-- **Variables stay in their places, and new paths follow in the order in which they come
first.** -/
theorem paths_taken :
    (taken c entries).collection.paths = c.paths ++ c.newPaths entries := by
  induction entries using List.reverseRecOn with
  | nil => exact (List.append_nil _).symm
  | append_singleton entries e ih =>
    rw [taken_concat, collection_step, Collection.paths_put, ih, Collection.newPaths_concat,
      List.append_assoc]
    rfl

/-- **A path leads to the stored form of its last entry, or to what was there.** -/
theorem get?_taken (path : String) : (taken c entries).collection.get? path =
    ((lastOf? entries path).map Stored.ofEntry).or (c.get? path) := by
  induction entries using List.reverseRecOn with
  | nil => rfl
  | append_singleton entries e ih =>
    rw [taken_concat, collection_step, Collection.get?_put, ih, lastOf?_concat]
    change (if e.path = path then _ else _) = _
    split_ifs <;> rfl

theorem added_step (p : Progress) (e : Entry) : (p.step e).added =
    p.added + ([e.path].filter fun path => path ∉ p.collection.paths).length := by
  unfold step
  cases h : p.collection.get? e.path with
  | none => simp [Collection.get?_eq_none_iff.1 h]
  | some v => simp [Collection.mem_paths_of_get? h]

theorem added_taken : (taken c entries).added = (c.newPaths entries).length := by
  induction entries using List.reverseRecOn with
  | nil => rfl
  | append_singleton entries e ih =>
    rw [taken_concat, added_step, ih, paths_taken, Collection.newPaths_concat, List.length_append]

theorem added_add_updated_step (p : Progress) (e : Entry) :
    (p.step e).added + (p.step e).updated = p.added + p.updated + 1 := by
  unfold step
  split_ifs
  · exact (Nat.add_assoc p.added p.updated 1).symm
  · exact Nat.add_right_comm p.added 1 p.updated

theorem added_add_updated_taken :
    (taken c entries).added + (taken c entries).updated = entries.length := by
  induction entries using List.reverseRecOn with
  | nil => rfl
  | append_singleton entries e ih =>
    rw [taken_concat, added_add_updated_step, ih, List.length_append, List.length_singleton]

end Progress

/-! ## Types -/

namespace Collection

/-- What the entry would replace has its type. -/
def Suits (c : Collection) (e : Entry) : Prop := ∀ v ∈ c.vars, v.name = e.path → v.kind = e.kind

/-- The mismatch is that of an entry that does not suit the collection, while those before it do. -/
def FirstMismatch (c : Collection) (entries : List Entry) (m : TypeMismatch) : Prop :=
  ∃ earlier e later, entries = earlier ++ e :: later ∧ (∀ e' ∈ earlier, c.Suits e') ∧
    ∃ v ∈ c.vars, v.name = e.path ∧ v.kind ≠ e.kind ∧ m = ⟨e.path, v.kind, e.kind⟩

variable {c : Collection} (hd : c.paths.Nodup) {e : Entry}

include hd

theorem mismatch?_eq_some_iff {m : TypeMismatch} : c.mismatch? e = some m ↔
    ∃ v ∈ c.vars, v.name = e.path ∧ v.kind ≠ e.kind ∧ m = ⟨e.path, v.kind, e.kind⟩ := by
  rw [mismatch?, Option.bind_eq_some_iff]
  refine exists_congr fun v => ?_
  rw [get?_eq_some_iff hd, and_assoc]
  refine and_congr_right fun _ => and_congr_right fun _ => ?_
  split_ifs with hk
  · simp [hk]
  · rw [Option.some.injEq, eq_comm]
    exact (and_iff_right hk).symm

theorem mismatch?_eq_none_iff : c.mismatch? e = none ↔ c.Suits e := by
  rw [mismatch?, Option.bind_eq_none_iff]
  refine forall_congr' fun v => ?_
  rw [get?_eq_some_iff hd, and_imp]
  refine forall_congr' fun _ => forall_congr' fun _ => ?_
  split_ifs with hk <;> simp [hk]

theorem findSome?_mismatch?_iff {entries : List Entry} {m : TypeMismatch} :
    entries.findSome? c.mismatch? = some m ↔ c.FirstMismatch entries m := by
  simp only [List.findSome?_eq_some_iff, mismatch?_eq_some_iff hd, mismatch?_eq_none_iff hd]
  refine exists_congr fun earlier => exists_congr fun e => exists_congr fun later => ?_
  exact and_congr_right fun _ => and_comm

end Collection

/-! ## All or none -/

/-- An entry with a value and nothing else. -/
def Entry.plain (name : String) (c : Concrete) : Entry where
  name
  path := pathOfName name
  kind := c.kind
  value := { value := .concrete c }
  modes := .empty
  description := none
  scopes := []

namespace Store

variable {s s' : Store} {name : String} {entries : List Entry} {summary : Summary}

/-- The store `s'` is `s` with entries taken into one collection, and the summary counts them. -/
structure TakenIn (s : Store) (name : String) (entries : List Entry) (s' : Store)
    (summary : Summary) : Prop where
  exists_collection : s'.collections.contains name = true
  /-- Variables that were there keep their places, and those of new paths follow in the order in
  which the entries mention them first. -/
  paths : (s'.collection name).paths =
    (s.collection name).paths ++ (s.collection name).newPaths entries
  distinct : (s'.collection name).paths.Nodup
  /-- A path that entries have leads to the stored form of the last of them, and any other path to
  what it led to before. -/
  contents : ∀ path, (s'.collection name).get? path =
    ((lastOf? entries path).map Stored.ofEntry).or ((s.collection name).get? path)
  others : ∀ other, other ≠ name → s'.collections.get? other = s.collections.get? other
  counted : summary.collection = name
  /-- Every new path counts once. -/
  added : summary.added = ((s.collection name).newPaths entries).length
  /-- All other entries count as updates. -/
  updated : summary.added + summary.updated = entries.length

theorem TakenIn.of_apply (hd : (s.collection name).paths.Nodup)
    (ha : s.apply name entries = (.ok summary, s')) : s.TakenIn name entries s' summary := by
  obtain ⟨-, rfl, rfl⟩ := apply_eq_ok_iff.1 ha
  have hc := s.collection_insert_self name (Progress.taken (s.collection name) entries).collection
  rw [Progress.taken] at hc
  constructor
  · rw [SortedMap.contains, SortedMap.get?_insert_self, Option.isSome_some]
  · rw [hc]
    exact Progress.paths_taken (s.collection name) entries
  · rw [hc]
    exact Progress.nodup_foldl_step (p := { collection := s.collection name }) hd
  · intro path
    rw [hc]
    exact Progress.get?_taken (s.collection name) entries path
  · intro other hne
    exact (SortedMap.get?_insert ..).trans (if_neg (Ne.symm hne))
  · rfl
  · exact Progress.added_taken (s.collection name) entries
  · exact Progress.added_add_updated_taken (s.collection name) entries

/-- **Entries are taken in all together, unless one of them is not of the type that is stored: then
the first such entry is reported, and the store is as it was.** -/
theorem apply_all_or_none (hd : (s.collection name).paths.Nodup) (entries : List Entry) :
    ((∃ m, (s.apply name entries).1 = .error m) ↔
        ∃ e ∈ entries, ¬ (s.collection name).Suits e) ∧
      (∀ m s', s.apply name entries = (.error m, s') →
        (s.collection name).FirstMismatch entries m ∧ s' = s) ∧
      ∀ summary s', s.apply name entries = (.ok summary, s') →
        s.TakenIn name entries s' summary := by
  refine ⟨?_, fun m s' hm => ?_, fun summary s' ha => .of_apply hd ha⟩
  · have herror : (∃ m, (s.apply name entries).1 = .error m) ↔
        entries.findSome? (s.collection name).mismatch? ≠ none := by
      rw [apply_eq]
      cases entries.findSome? (s.collection name).mismatch? <;> simp
    rw [herror, ne_eq, List.findSome?_eq_none_iff]
    simp only [Collection.mismatch?_eq_none_iff hd, not_forall, exists_prop]
  · obtain ⟨hfirst, rfl⟩ := apply_eq_error_iff.1 hm
    exact ⟨(Collection.findSome?_mismatch?_iff hd).1 hfirst, rfl⟩

/-- A store with one number. -/
def ofGap : Store :=
  ⟨SortedMap.empty.insert "Tokens" ⟨[.ofEntry (.plain "gap" (.number 4))]⟩⟩

/-- A new path that comes twice, with two types, is added once, around an update; a color in the
place of the number is refused. -/
theorem apply_all_or_none_gap :
    let taken := [.plain "pad" (.number 1), .plain "gap" (.number 2), .plain "pad" (.color .zero)]
    let refused := [.plain "pad" (.number 1), .plain "gap" (.color .zero)]
    (ofGap.collection "Tokens").paths.Nodup ∧
      (∃ s', ofGap.apply "Tokens" taken = (.ok ⟨"Tokens", 1, 2⟩, s') ∧
        ofGap.TakenIn "Tokens" taken s' ⟨"Tokens", 1, 2⟩) ∧
      ofGap.apply "Tokens" refused = (.error ⟨"gap", .number, .color⟩, ofGap) ∧
      (ofGap.collection "Tokens").FirstMismatch refused ⟨"gap", .number, .color⟩ := by
  intro taken refused
  have hd : (ofGap.collection "Tokens").paths.Nodup := List.nodup_singleton _
  refine ⟨hd, ⟨_, rfl, ?_⟩, rfl, ?_⟩
  · exact (apply_all_or_none hd taken).2.2 _ _ rfl
  · exact ((apply_all_or_none hd refused).2.1 _ _ rfl).1

end Store

end DesignVars
