import DesignVars.Proofs.Linking
import DesignVars.Proofs.Scope

/-!
# What holds of a store all along

A store starts out empty and changes by imports alone.

* `Store.after`, `Store.ofImports`: the store after one import and after some;
* `Collection.outline`, `Store.Extends`: collections as far as imports keep them, and stores of
  which one grew out of the other;
* `Store.Extends.apply`: taking entries in only adds variables at the end;
* `Stored.Typed`, `Store.Holds`, **`Store.Sound`**: what holds of every store;
* `Store.holds_of_links`, `Store.Sound.imported`: one import preserves it, as what entries refer to
  is stored with them or was there before;
* **`ofImports_sound`**: every store is sound, and the stores after it extend it.
-/

namespace DesignVars

/-- The store after an import, whether it succeeds or not. -/
def Store.after (s : Store) (i : String × Settings) : Store := (runImport i.1 i.2 s).result.2

/-- The store after some imports into an empty one. -/
def Store.ofImports (imports : List (String × Settings)) : Store := imports.foldl Store.after {}

/-- The paths and types of the variables, in order. -/
def Collection.outline (c : Collection) : List (String × Kind) :=
  c.vars.map fun v => (v.name, v.kind)

/-- Every variable of the former store is in the same collection and place of the latter, with the
same type. -/
def Store.Extends (s s' : Store) : Prop :=
  ∀ name, (s.collection name).outline <+: (s'.collection name).outline

/-- Some collection has a variable of that path and type. -/
def Store.Holds (s : Store) (path : String) (kind : Kind) : Prop :=
  ∃ v ∈ s.storedAt path, v.kind = kind

/-- The values and scopes of a stored variable suit its type. -/
structure Stored.Typed (v : Stored) : Prop where
  concrete : v.kind = .number ∨ v.kind = .color
  values : ∀ x ∈ v.values, x.kind = v.kind
  scopes : v.scopes.Nodup
  applies : ∀ scope ∈ v.scopes, scope.appliesTo v.kind = true

/-- What holds of a store after any imports. -/
structure Store.Sound (s : Store) : Prop where
  /-- No two variables of a collection have one path. -/
  distinct : ∀ c ∈ s.collections.values, (c.vars.map Stored.name).Nodup
  coded : s.All Stored.Coded
  typed : s.All Stored.Typed
  /-- What a variable is an alias of is stored with the same type, in one of the collections. -/
  linked : s.All fun v => ∀ path, v.aliasOf = some path → s.Holds path v.kind

/-! ## Collections only grow -/

namespace Collection

variable {c : Collection} {v : Stored}

theorem name_of_get? {path : String} {w : Stored} (h : c.get? path = some w) : w.name = path := by
  have := List.find?_some h
  exact beq_iff_eq.1 this

/-- What `v` has in common with the variable that it replaces stays, and otherwise `v` comes
last. -/
theorem map_put {β : Type} (f : Stored → β) (h : ∀ w, c.get? v.name = some w → f w = f v) :
    (c.put v).vars.map f =
      c.vars.map f ++ (c.get? v.name).elim [f v] fun _ => [] := by
  obtain ⟨ws⟩ := c
  simp only [put, get?] at h ⊢
  induction ws with
  | nil => rfl
  | cons w ws ih =>
    unfold putStored
    by_cases hw : w.name = v.name
    · have hfind : (w :: ws).find? (fun x => x.name == v.name) = some w :=
        List.find?_cons_of_pos (beq_iff_eq.2 hw)
      rw [if_pos hw, hfind, List.map_cons, List.map_cons, h w hfind, Option.elim_some,
        List.append_nil]
    · have hfind : (w :: ws).find? (fun x => x.name == v.name) =
          ws.find? fun x => x.name == v.name :=
        List.find?_cons_of_neg fun hb => hw (beq_iff_eq.1 hb)
      rw [hfind] at h ⊢
      rw [if_neg hw, List.map_cons, List.map_cons, ih h, List.cons_append]

theorem nodup_names_put (h : (c.vars.map Stored.name).Nodup) :
    ((c.put v).vars.map Stored.name).Nodup := by
  rw [map_put Stored.name fun w hw => name_of_get? hw]
  cases hget : c.get? v.name with
  | some w => simpa using h
  | none =>
    have hv : v.name ∉ c.vars.map Stored.name := by
      intro hmem
      obtain ⟨w, hw, hn⟩ := List.mem_map.1 hmem
      exact List.find?_eq_none.1 hget w hw (beq_iff_eq.2 hn)
    rw [Option.elim_none, ← List.concat_eq_append]
    exact h.concat hv

theorem outline_put_prefix (h : ∀ w, c.get? v.name = some w → w.kind = v.kind) :
    c.outline <+: (c.put v).outline := by
  have hpair : ∀ w, c.get? v.name = some w → (w.name, w.kind) = (v.name, v.kind) := by
    intro w hw
    rw [name_of_get? hw, h w hw]
  unfold outline
  rw [map_put _ hpair]
  exact List.prefix_append _ _

end Collection

section Foldl

variable {entries : List Entry}

theorem Progress.nodup_foldl_step {p : Progress} (h : (p.collection.vars.map Stored.name).Nodup) :
    ((entries.foldl step p).collection.vars.map Stored.name).Nodup := by
  refine List.foldlRecOn (motive := fun p => (p.collection.vars.map Stored.name).Nodup)
    entries step h fun p hp e _ => ?_
  rw [collection_step]
  exact Collection.nodup_names_put hp

/-- Entries of different paths that have the types of what they replace keep the outline. The types
are checked beforehand; an entry meets what was there then, as no other entry has its path. -/
theorem Progress.outline_foldl_step_prefix (hd : (entries.map Entry.path).Nodup) {p : Progress}
    (hk : ∀ e ∈ entries, ∀ v, p.collection.get? e.path = some v → v.kind = e.kind) :
    p.collection.outline <+: (entries.foldl step p).collection.outline := by
  induction entries generalizing p with
  | nil => exact List.prefix_refl _
  | cons e es ih =>
    rw [List.map_cons, List.nodup_cons] at hd
    obtain ⟨he, hk⟩ := List.forall_mem_cons.1 hk
    refine (Collection.outline_put_prefix (v := .ofEntry e) he).trans ?_
    rw [List.foldl_cons, ← collection_step]
    refine ih hd.2 fun e' he' v hv => hk e' he' v ?_
    have hne : (Stored.ofEntry e).name ≠ e'.path := by
      intro h
      change e.path = e'.path at h
      exact hd.1 (h ▸ List.mem_map_of_mem he')
    rwa [collection_step, Collection.get?_put, if_neg hne] at hv

end Foldl

/-! ## Stores only grow -/

namespace Store

theorem Extends.refl (s : Store) : s.Extends s := fun _ => List.prefix_refl _

theorem Extends.trans {s₁ s₂ s₃ : Store} (h : s₁.Extends s₂) (h' : s₂.Extends s₃) :
    s₁.Extends s₃ := fun name => (h name).trans (h' name)

section Apply

variable {s s' : Store} {name : String} {entries : List Entry} {summary : Summary}
  (ha : s.apply name entries = (.ok summary, s'))

include ha

theorem kind_of_apply {e : Entry} (he : e ∈ entries) {v : Stored}
    (hv : (s.collection name).get? e.path = some v) : v.kind = e.kind := by
  have hm := List.findSome?_eq_none_iff.1 (apply_eq_ok_iff.1 ha).1 e he
  rw [Collection.mismatch?, hv, Option.bind_some] at hm
  by_contra hne
  rw [if_neg hne] at hm
  cases hm

theorem Extends.apply (hd : (entries.map Entry.path).Nodup) : s.Extends s' := by
  intro other
  obtain ⟨-, rfl, -⟩ := apply_eq_ok_iff.1 ha
  rw [collection_insert]
  split_ifs with h
  · subst h
    exact Progress.outline_foldl_step_prefix (p := { collection := s.collection name }) hd
      fun e he v hv => kind_of_apply ha he hv
  · exact List.prefix_refl _

theorem nodup_apply (h : ∀ c ∈ s.collections.values, (c.vars.map Stored.name).Nodup) :
    ∀ c ∈ s'.collections.values, (c.vars.map Stored.name).Nodup := by
  have hbefore : ((s.collection name).vars.map Stored.name).Nodup :=
    forall_collection List.nodup_nil h name
  exact forall_apply h (Progress.nodup_foldl_step hbefore) ha

end Apply

/-! ## What a store holds -/

theorem mem_storedAt_iff {s : Store} {path : String} {v : Stored} :
    v ∈ s.storedAt path ↔ (∃ c ∈ s.collections.values, v ∈ c.vars) ∧ v.name = path := by
  simp [storedAt, List.mem_filter, List.mem_flatMap]

theorem exists_mem_collection_iff {s : Store} {v : Stored} :
    (∃ c ∈ s.collections.values, v ∈ c.vars) ↔ ∃ name, v ∈ (s.collection name).vars := by
  constructor
  · rintro ⟨c, hc, hv⟩
    obtain ⟨name, hname⟩ := (s.collections.mem_values_iff c).1 hc
    refine ⟨name, ?_⟩
    rwa [collection, hname]
  · rintro ⟨name, hv⟩
    by_contra hno
    have hnot : ∀ c ∈ s.collections.values, v ∉ c.vars := fun c hc hv => hno ⟨c, hc, hv⟩
    exact forall_collection List.not_mem_nil hnot name hv

theorem holds_iff {s : Store} {path : String} {kind : Kind} :
    s.Holds path kind ↔ ∃ name, (path, kind) ∈ (s.collection name).outline := by
  simp only [Holds, mem_storedAt_iff, exists_mem_collection_iff, Collection.outline, List.mem_map,
    Prod.mk.injEq]
  constructor
  · rintro ⟨v, ⟨⟨name, hv⟩, hn⟩, hk⟩
    exact ⟨name, v, hv, hn, hk⟩
  · rintro ⟨name, v, hv, hn, hk⟩
    exact ⟨v, ⟨⟨name, hv⟩, hn⟩, hk⟩

theorem Holds.mono {s s' : Store} (h : s.Extends s') {path : String} {kind : Kind}
    (hh : s.Holds path kind) : s'.Holds path kind := by
  obtain ⟨name, hmem⟩ := holds_iff.1 hh
  exact holds_iff.2 ⟨name, (h name).subset hmem⟩

theorem exists_concrete_of_foldl {vars : List Stored} {c : Concrete} {found : Option Concrete}
    (h : vars.foldl (fun found v => v.value.concrete?.or found) found = some c) :
    found = some c ∨ ∃ v ∈ vars, v.value.concrete? = some c := by
  induction vars generalizing found with
  | nil => exact .inl h
  | cons v vars ih =>
    rcases ih h with h | ⟨w, hw, hc⟩
    · rcases Option.or_eq_some_iff.1 h with h | ⟨-, h⟩
      · exact .inr ⟨v, List.mem_cons_self, h⟩
      · exact .inl h
    · exact .inr ⟨w, List.mem_cons_of_mem v hw, hc⟩

/-- What a sound store gives for a valid name is stored under its path, with the type that it
has. -/
theorem Sound.holds_of_get?_existing {s : Store} (hs : s.Sound) {name : String}
    (hn : isValidName name = true) {c : Concrete} (hc : s.existing.get? name = some c) :
    s.Holds (pathOfName name) c.kind := by
  rw [get?_existing hn hs.coded] at hc
  rcases exists_concrete_of_foldl hc with hc | ⟨v, hv, hc⟩
  · cases hc
  · obtain ⟨⟨col, hcol, hmem⟩, -⟩ := mem_storedAt_iff.1 hv
    refine ⟨v, hv, ?_⟩
    have hk := (hs.typed col hcol v hmem).values v.value List.mem_cons_self
    rw [← hk, Value.concrete?_eq_some_iff.1 hc]
    rfl

end Store

/-! ## One import -/

theorem Kind.eq_of_isConcrete {k : Kind} (h : k.isConcrete = true) : k = .number ∨ k = .color := by
  cases k
  · exact .inl rfl
  · exact .inr rfl
  · cases h

theorem Stored.typed_ofEntry {settings : Settings} {v : Variable} {e : Entry}
    (he : v.finalized? settings = some e) : (Stored.ofEntry e).Typed := by
  obtain ⟨c, hc, hk⟩ := v.exists_value_of_finalized? he
  have hconcrete : e.kind.isConcrete = true := hk ▸ c.isConcrete_kind
  refine ⟨Kind.eq_of_isConcrete hconcrete, fun x hx => ?_, ?_, fun scope hs => ?_⟩
  · rcases Stored.mem_values_ofEntry.1 hx with rfl | ⟨m, s, hs, rfl⟩
    · rw [hc]
      exact hk
    · exact ((v.get?_modes_of_finalized? he).1 hs).2.2
  · show e.scopes.Nodup
    rw [v.scopes_of_finalized? he]
    exact scopesFor_nodup settings e.name e.kind
  · have hmem : scope ∈ scopesFor settings e.name e.kind := v.scopes_of_finalized? he ▸ hs
    exact appliesTo_of_mem_scopesFor hmem

section Import

variable {s s' : Store} {css : String} {settings : Settings} {summary : Summary}
  (hi : (runImport css settings s).result = (.ok summary, s'))

include hi

theorem Store.Extends.imported : s.Extends s' :=
  .apply hi (nodup_paths_finalize css s.existing settings)

theorem Store.get?_of_mem {e : Entry} (he : e ∈ (runImport css settings s).entries) :
    (s'.collection settings.collection).get? e.path = some (.ofEntry e) := by
  have hd := nodup_paths_finalize css s.existing settings
  obtain ⟨-, rfl, -⟩ := Store.apply_eq_ok_iff.1 hi
  rw [collection_insert_self]
  exact Progress.get?_foldl_step hd { collection := s.collection settings.collection } e he

theorem Store.holds_of_mem {e : Entry} (he : e ∈ (runImport css settings s).entries) :
    s'.Holds e.path e.kind := by
  have hmem := List.mem_of_find?_eq_some (Store.get?_of_mem hi he)
  exact holds_iff.2 ⟨settings.collection, List.mem_map.2 ⟨_, hmem, rfl⟩⟩

/-- What can be linked to a target of a valid name is stored under the path of the target. -/
theorem Store.holds_of_links (hs : s.Sound) {target : String} (hn : isValidName target = true)
    {kind : Kind} (hl : (runImport css settings s).report.Links s.existing
      (runImport css settings s).entries kind target) : s'.Holds (pathOfName target) kind := by
  rcases hl with ⟨e, he, rfl, rfl⟩ | ⟨-, hget⟩
  · rw [← path_of_mem_finalize he]
    exact Store.holds_of_mem hi he
  · obtain ⟨c, hc, rfl⟩ := Option.map_eq_some_iff.1 hget
    exact (hs.holds_of_get?_existing hn hc).mono (.imported hi)

/-- **An import preserves what holds of a store.** -/
theorem Store.Sound.imported (hs : s.Sound) : s'.Sound := by
  refine ⟨Store.nodup_apply hi hs.distinct,
    hs.coded.apply (fun e he => Stored.coded_ofEntry he) hi,
    hs.typed.apply (fun e he => ?_) hi, ?_⟩
  · obtain ⟨v, -, hve⟩ := mem_finalize_iff.1 he
    exact Stored.typed_ofEntry hve
  · have old : s.All fun v => ∀ path, v.aliasOf = some path → s'.Holds path v.kind :=
      fun c hc v hv path hp => (hs.linked c hc v hv path hp).mono (.imported hi)
    refine old.apply (fun e he path hp => ?_) hi
    obtain ⟨target, ha, rfl⟩ := Option.map_eq_some_iff.1 hp
    obtain ⟨hn, hl⟩ := links_of_base he ha
    exact Store.holds_of_links hi hs hn hl

end Import

/-! ## All imports -/

theorem Store.sound_empty : ({} : Store).Sound := ⟨nofun, nofun, nofun, nofun⟩

theorem Store.after_cases (s : Store) (i : String × Settings) :
    (∃ summary, (runImport i.1 i.2 s).result = (.ok summary, s.after i)) ∨ s.after i = s := by
  unfold Store.after
  rcases hr : (runImport i.1 i.2 s).result with ⟨m | summary, s'⟩
  · exact .inr (Store.apply_eq_error_iff.1 hr).2
  · exact .inl ⟨summary, rfl⟩

theorem Store.Sound.after {s : Store} (hs : s.Sound) (i : String × Settings) :
    (s.after i).Sound := by
  rcases s.after_cases i with ⟨summary, hi⟩ | h
  · exact hs.imported hi
  · rwa [h]

theorem Store.extends_after (s : Store) (i : String × Settings) : s.Extends (s.after i) := by
  rcases s.after_cases i with ⟨summary, hi⟩ | h
  · exact .imported hi
  · rw [h]
    exact .refl s

/-- **After any imports a store is sound, and whatever is imported later, its variables stay in
their places and keep their types.** -/
theorem ofImports_sound (imports more : List (String × Settings)) :
    (Store.ofImports imports).Sound ∧
      (Store.ofImports imports).Extends (Store.ofImports (imports ++ more)) := by
  constructor
  · exact List.foldlRecOn imports Store.after Store.sound_empty fun _ hs i _ => hs.after i
  · unfold Store.ofImports
    rw [List.foldl_append]
    exact List.foldlRecOn more Store.after (.refl _) fun s h i _ => h.trans (s.extends_after i)

end DesignVars
