/-!
# Maps with texts as keys, in the order of the keys

A map is the list of its entries in strictly ascending order of the keys, so two maps with the
same look-ups are equal (**`SortedMap.ext_get?`**).

* `get?`, `insert`, `erase`, `mapValues`, `filterMap`, `ofList`;
* `get?_insert`, `get?_erase`: what a look-up finds after a change.
-/

namespace DesignVars

/-- A finite map from texts to values, held in ascending order of its keys. -/
structure SortedMap (α : Type) where
  entries : List (String × α)
  sorted : entries.Pairwise fun a b => a.1 < b.1

namespace SortedMap

variable {α β : Type}

/-! ## Entries -/

/-- The entries with `k` set to `v`, in order. -/
def put (k : String) (v : α) : List (String × α) → List (String × α)
  | [] => [(k, v)]
  | e :: es =>
    if k < e.1 then (k, v) :: e :: es
    else if k = e.1 then (k, v) :: es
    else e :: put k v es

theorem mem_put {k : String} {v : α} {es : List (String × α)} {x : String × α}
    (h : x ∈ put k v es) : x = (k, v) ∨ x ∈ es := by
  induction es with
  | nil => simpa [put] using h
  | cons e es ih =>
    unfold put at h
    split at h
    · simpa using h
    · split at h
      · rcases List.mem_cons.1 h with h | h <;> simp [h]
      · rcases List.mem_cons.1 h with h | h
        · simp [h]
        · rcases ih h with h | h <;> simp [h]

private theorem lt_of_not_lt_of_ne {a b : String} (h : ¬ a < b) (hne : a ≠ b) : b < a :=
  String.not_le.1 fun h' => hne (String.le_antisymm h' (String.not_lt.1 h))

theorem put_sorted (k : String) (v : α) {es : List (String × α)}
    (h : es.Pairwise fun a b => a.1 < b.1) : (put k v es).Pairwise fun a b => a.1 < b.1 := by
  induction es with
  | nil => simp [put]
  | cons e es ih =>
    have he := List.pairwise_cons.1 h
    unfold put
    split
    · rename_i hk
      refine List.pairwise_cons.2 ⟨fun x hx => ?_, h⟩
      rcases List.mem_cons.1 hx with rfl | hx
      · exact hk
      · exact String.lt_trans hk (he.1 x hx)
    · rename_i hk
      split
      · rename_i hk'
        exact List.pairwise_cons.2 ⟨fun x hx => hk' ▸ he.1 x hx, he.2⟩
      · rename_i hk'
        refine List.pairwise_cons.2 ⟨fun x hx => ?_, ih he.2⟩
        rcases mem_put hx with rfl | hx
        · exact lt_of_not_lt_of_ne hk hk'
        · exact he.1 x hx

/-! ## Operations -/

def empty : SortedMap α := ⟨[], .nil⟩

instance : Inhabited (SortedMap α) := ⟨empty⟩
instance : EmptyCollection (SortedMap α) := ⟨empty⟩
instance [BEq α] : BEq (SortedMap α) := ⟨fun a b => a.entries == b.entries⟩

/-- The keys, ascending. -/
def keys (m : SortedMap α) : List String := m.entries.map (·.1)

/-- The values, in the order of their keys. -/
def values (m : SortedMap α) : List α := m.entries.map (·.2)

def isEmpty (m : SortedMap α) : Bool := m.entries.isEmpty

def get? (m : SortedMap α) (k : String) : Option α :=
  (m.entries.find? (·.1 == k)).map (·.2)

def contains (m : SortedMap α) (k : String) : Bool := (m.get? k).isSome

/-- The map with `v` at `k`, whatever was there before. -/
def insert (m : SortedMap α) (k : String) (v : α) : SortedMap α :=
  ⟨put k v m.entries, put_sorted k v m.sorted⟩

def erase (m : SortedMap α) (k : String) : SortedMap α :=
  ⟨m.entries.filter (·.1 != k), m.sorted.filter _⟩

/-- The map with every value replaced by its image, which may depend on the key. -/
def mapValues (m : SortedMap α) (f : String → α → β) : SortedMap β :=
  ⟨m.entries.map fun e => (e.1, f e.1 e.2), by
    rw [List.pairwise_map]; exact m.sorted⟩

/-- The map of the images that exist. -/
def filterMap (m : SortedMap α) (f : String → α → Option β) : SortedMap β :=
  ⟨m.entries.filterMap fun e => (f e.1 e.2).map fun b => (e.1, b), by
    rw [List.pairwise_filterMap]
    refine m.sorted.imp fun h b hb b' hb' => ?_
    obtain ⟨_, _, rfl⟩ := Option.map_eq_some_iff.1 hb
    obtain ⟨_, _, rfl⟩ := Option.map_eq_some_iff.1 hb'
    exact h⟩

/-- The map that the pairs build one after the other: of two pairs with one key the later counts. -/
def ofList (es : List (String × α)) : SortedMap α :=
  es.foldl (fun m e => m.insert e.1 e.2) empty

/-! ## Look-ups -/

@[simp] theorem get?_empty (k : String) : (empty : SortedMap α).get? k = none := rfl

theorem find?_put (k k' : String) (v : α) (es : List (String × α)) :
    (put k v es).find? (·.1 == k') =
      if k = k' then some (k, v) else es.find? (·.1 == k') := by
  induction es with
  | nil => by_cases h : k = k' <;> simp [put, h]
  | cons e es ih =>
    unfold put
    split
    · by_cases h : k = k' <;> simp [List.find?_cons, h]
    · split
      · rename_i hk
        by_cases h : k = k'
        · simp [h]
        · have : ¬ e.1 = k' := fun h' => h (hk.trans h')
          simp [h, this]
      · rename_i hk
        by_cases h : e.1 = k'
        · have : ¬ k = k' := fun h' => hk (h'.trans h.symm)
          simp [h, this]
        · simp [h, ih]

/-- A look-up after an insertion finds the new value at its key and the old one elsewhere. -/
theorem get?_insert (m : SortedMap α) (k k' : String) (v : α) :
    (m.insert k v).get? k' = if k = k' then some v else m.get? k' := by
  unfold get? insert
  rw [find?_put]
  split <;> rfl

@[simp] theorem get?_insert_self (m : SortedMap α) (k : String) (v : α) :
    (m.insert k v).get? k = some v := by simp [get?_insert]

/-- A look-up after an erasure finds nothing at the key and the old value elsewhere. -/
theorem get?_erase (m : SortedMap α) (k k' : String) :
    (m.erase k).get? k' = if k = k' then none else m.get? k' := by
  unfold get? erase
  simp only [List.find?_filter]
  split
  · subst_vars
    simp [List.find?_eq_none]
  · rename_i h
    congr 2
    funext e
    by_cases he : e.1 = k'
    · simp [he, Ne.symm h]
    · simp [he]

theorem get?_foldl_erase (keys : List String) (m : SortedMap α) (k : String) :
    (keys.foldl erase m).get? k = if k ∈ keys then none else m.get? k := by
  induction keys generalizing m with
  | nil => rfl
  | cons key keys ih =>
    rw [List.foldl_cons, ih, get?_erase]
    by_cases h : key = k
    · simp [h]
    · simp [h, Ne.symm h]

theorem mem_entries_iff (m : SortedMap α) (k : String) (v : α) :
    (k, v) ∈ m.entries ↔ m.get? k = some v := by
  obtain ⟨es, hs⟩ := m
  simp only [get?]
  induction es with
  | nil => simp
  | cons e es ih =>
    have he := List.pairwise_cons.1 hs
    by_cases h : e.1 = k
    · simp only [List.mem_cons, List.find?_cons, h, beq_self_eq_true, Option.map_some,
        Option.some.injEq]
      constructor
      · rintro (rfl | h')
        · rfl
        · exact absurd (h ▸ he.1 _ h') (String.lt_irrefl _)
      · intro h'; left; rw [← h, ← h']
    · have : ¬ (k, v) = e := fun h' => h (by rw [← h'])
      simp only [List.mem_cons, this, false_or, List.find?_cons, beq_eq_false_iff_ne.2 h]
      exact ih he.2

theorem contains_iff_mem_keys (m : SortedMap α) (k : String) :
    m.contains k = true ↔ k ∈ m.keys := by
  unfold contains keys
  rw [Option.isSome_iff_exists, List.mem_map]
  constructor
  · rintro ⟨v, hv⟩
    exact ⟨(k, v), (m.mem_entries_iff k v).2 hv, rfl⟩
  · rintro ⟨e, he, rfl⟩
    exact ⟨e.2, (m.mem_entries_iff e.1 e.2).1 he⟩

theorem mem_keys_iff {m : SortedMap α} {k : String} : k ∈ m.keys ↔ ∃ v, m.get? k = some v := by
  rw [← contains_iff_mem_keys, contains, Option.isSome_iff_exists]

theorem keys_nodup (m : SortedMap α) : m.keys.Nodup := by
  unfold keys List.Nodup
  rw [List.pairwise_map]
  exact m.sorted.imp fun {a b} hab (he : a.1 = b.1) => String.lt_irrefl b.1 (he ▸ hab)

private theorem map_fst_put {k : String} {v : α} {es : List (String × α)}
    (h : es.Pairwise fun a b => a.1 < b.1) (hk : k ∈ es.map (·.1)) :
    (put k v es).map (·.1) = es.map (·.1) := by
  induction es with
  | nil => cases hk
  | cons e es ih =>
    have he := List.pairwise_cons.1 h
    unfold put
    split
    · rename_i hlt
      rcases List.mem_cons.1 hk with hk | hk
      · exact absurd (hk ▸ hlt) (String.lt_irrefl _)
      · obtain ⟨x, hx, rfl⟩ := List.mem_map.1 hk
        exact absurd (String.lt_trans hlt (he.1 x hx)) (String.lt_irrefl _)
    · split
      · rename_i heq
        simp [heq]
      · rename_i hne
        rw [List.map_cons, List.map_cons, ih he.2]
        exact (List.mem_cons.1 hk).resolve_left hne

/-- A new value at a key that is there leaves the keys as they are. -/
theorem keys_insert_of_contains {m : SortedMap α} {k : String} (v : α) (h : m.contains k = true) :
    (m.insert k v).keys = m.keys :=
  map_fst_put m.sorted ((m.contains_iff_mem_keys k).1 h)

/-- A look-up in the map of images finds the image of what was there. -/
theorem get?_filterMap (m : SortedMap α) (f : String → α → Option β) (k : String) :
    (m.filterMap f).get? k = (m.get? k).bind (f k) := by
  refine Option.ext fun b => ?_
  rw [← mem_entries_iff, Option.bind_eq_some_iff]
  unfold filterMap
  simp only [List.mem_filterMap, Option.map_eq_some_iff, Prod.mk.injEq]
  constructor
  · rintro ⟨⟨k', v⟩, he, b', hb, rfl, rfl⟩
    exact ⟨v, (m.mem_entries_iff k' v).1 he, hb⟩
  · rintro ⟨v, hv, hb⟩
    exact ⟨(k, v), (m.mem_entries_iff k v).2 hv, b, hb, rfl, rfl⟩

theorem mem_values_iff (m : SortedMap α) (v : α) : v ∈ m.values ↔ ∃ k, m.get? k = some v := by
  unfold values
  simp only [List.mem_map, Prod.exists, exists_eq_right, mem_entries_iff]

theorem mem_keys_insert {m : SortedMap α} {k k' : String} {v : α} :
    k' ∈ (m.insert k v).keys ↔ k = k' ∨ k' ∈ m.keys := by
  simp only [mem_keys_iff, get?_insert]
  split <;> simp_all

theorem mem_keys_ofList {es : List (String × α)} {k : String} :
    k ∈ (ofList es).keys ↔ k ∈ es.map (·.1) := by
  have h : ∀ m : SortedMap α, k ∈ (es.foldl (fun m e => m.insert e.1 e.2) m).keys ↔
      k ∈ es.map (·.1) ∨ k ∈ m.keys := by
    induction es with
    | nil => simp
    | cons e es ih =>
      intro m
      rw [List.foldl_cons, ih, mem_keys_insert, List.map_cons, List.mem_cons, eq_comm (a := k)]
      exact or_left_comm.trans or_assoc.symm
  rw [ofList, h]
  exact or_iff_left nofun

private theorem find?_eq_none_of_lt {es : List (String × α)} {k : String}
    (h : ∀ e ∈ es, k < e.1) : es.find? (·.1 == k) = none := by
  rw [List.find?_eq_none]
  intro e he hk
  exact String.lt_irrefl k (beq_iff_eq.1 hk ▸ h e he)

/-- A value that counts for as much as what it replaces changes no list made of all values. -/
theorem flatMap_values_insert (m : SortedMap α) (k : String) (v : α) (f : α → List β)
    (h : f v = (m.get? k).elim [] f) : (m.insert k v).values.flatMap f = m.values.flatMap f := by
  obtain ⟨es, hs⟩ := m
  simp only [insert, values, get?] at h ⊢
  induction es with
  | nil => simpa [put] using h
  | cons e es ih =>
    have he := List.pairwise_cons.1 hs
    unfold put
    split
    · rename_i hk
      have hn : (e :: es).find? (·.1 == k) = none := find?_eq_none_of_lt fun x hx => by
        rcases List.mem_cons.1 hx with rfl | hx
        · exact hk
        · exact String.lt_trans hk (he.1 x hx)
      rw [hn] at h
      simp_all
    · split
      · rename_i hk
        simp_all
      · rename_i hk
        rw [List.find?_cons_of_neg (by simpa using Ne.symm hk)] at h
        simp [ih he.2 h]

/-- **Two maps with the same look-ups are equal.** -/
theorem ext_get? {m n : SortedMap α} (h : ∀ k, m.get? k = n.get? k) : m = n := by
  have hmem : ∀ e, e ∈ m.entries ↔ e ∈ n.entries := fun (k, v) => by
    rw [mem_entries_iff, mem_entries_iff, h]
  have nodup : ∀ p : SortedMap α, p.entries.Nodup := fun p =>
    p.sorted.imp fun {a b} hab (he : a = b) => String.lt_irrefl b.1 (he ▸ hab)
  have : m.entries = n.entries :=
    List.Perm.eq_of_pairwise
      (fun (a b : String × α) _ _ (hab : a.1 < b.1) hba => absurd hba (String.lt_asymm hab))
      m.sorted n.sorted
      ((List.perm_ext_iff_of_nodup (nodup m) (nodup n)).2 hmem)
  cases m; cases n; simp_all

theorem insert_insert (m : SortedMap α) (k : String) (v w : α) :
    (m.insert k v).insert k w = m.insert k w := ext_get? fun k' => by
  simp only [get?_insert]
  split <;> rfl

private theorem get?_foldl_insert {es : List (String × α)} (h : (es.map (·.1)).Nodup)
    (m : SortedMap α) (k : String) : (es.foldl (fun m e => m.insert e.1 e.2) m).get? k =
      ((es.find? (·.1 == k)).map (·.2)).or (m.get? k) := by
  induction es generalizing m with
  | nil => rfl
  | cons e es ih =>
    obtain ⟨hk, h⟩ := List.nodup_cons.1 h
    rw [List.foldl_cons, ih h, get?_insert]
    by_cases he : e.1 = k
    · have hn : es.find? (·.1 == k) = none := by
        rw [List.find?_eq_none]
        intro x hx hxk
        exact hk (List.mem_map.2 ⟨x, hx, (beq_iff_eq.1 hxk).trans he.symm⟩)
      simp [hn, he]
    · simp [he]

/-- **The entries of a map build it again.** -/
theorem ofList_entries (m : SortedMap α) : ofList m.entries = m := by
  refine ext_get? fun k => ?_
  rw [ofList, get?_foldl_insert m.keys_nodup, get?_empty, Option.or_none]
  rfl

end SortedMap

end DesignVars
