import DesignVars.Proofs.Table
import DesignVars.Resolution

/-!
# Following aliases

* `Table.successor?`: where an alias of some mode leads in one step;
* `Table.Reaches`: following the aliases from a place ends with a value (`Reaches.unique`);
* `Table.targetValue?_eq`: an alias takes the value at its successor;
* `Table.mem_aliases_iff`, `Table.aliases_nodup`: the aliases of a table are its slots that wait;
* `Table.slot?_settle`: settling an alias is seen at its place and at no other.
-/

namespace DesignVars

/-! ## Following aliases -/

/-- Where an alias leads: to a slot of the table, or to a value of the snapshot. -/
inductive Successor where
  | place (p : Place)
  | value (c : Concrete)

/-- The place that serves an alias of some mode: that of the mode if there is one, and if not, that
of the base value if there is one. -/
def Variable.placeFor? (v : Variable) : Option String → Option Place
  | some mode =>
    if v.modes.contains mode then some ⟨v.name, some mode⟩
    else if v.declared then some ⟨v.name, none⟩
    else none
  | none => if v.declared then some ⟨v.name, none⟩ else none

namespace Table

variable (t : Table) (snapshot : Snapshot)

/-- Where an alias of some mode leads in one step. -/
def successor? (target : String) (mode : Option String) : Option Successor :=
  match t.get? target with
  | some v => (v.placeFor? mode).map .place
  | none => (snapshot.get? target).map .value

/-- Following the aliases from a place, step by step, ends with a value. -/
inductive Reaches : Place → Concrete → Prop
  | here {p : Place} {s : Slot} {c : Concrete} (hs : t.slot? p = some s)
      (hc : s.value = .concrete c) : Reaches p c
  | value {p : Place} {s : Slot} {target : String} {c : Concrete} (hs : t.slot? p = some s)
      (ha : s.value = .alias target)
      (hn : t.successor? snapshot target p.mode = some (.value c)) : Reaches p c
  | place {p q : Place} {s : Slot} {target : String} {c : Concrete} (hs : t.slot? p = some s)
      (ha : s.value = .alias target)
      (hn : t.successor? snapshot target p.mode = some (.place q)) (hq : Reaches q c) : Reaches p c

variable {t snapshot}

theorem Reaches.unique {p : Place} {c c' : Concrete} (h : t.Reaches snapshot p c)
    (h' : t.Reaches snapshot p c') : c = c' := by
  induction h with
  | here hs hc =>
    cases h' with
    | here hs' hc' => simp_all
    | value hs' ha' _ => simp_all
    | place hs' ha' _ _ => simp_all
  | value hs ha hn =>
    cases h' with
    | here hs' hc' => simp_all
    | value hs' ha' hn' => simp_all
    | place hs' ha' hn' _ => simp_all
  | place hs ha hn hq ih =>
    cases h' with
    | here hs' hc' => simp_all
    | value hs' ha' hn' => simp_all
    | place hs' ha' hn' hq' =>
      obtain rfl := Option.some.inj (hs.symm.trans hs')
      obtain rfl := Value.alias.inj (ha.symm.trans ha')
      obtain rfl := Successor.place.inj (Option.some.inj (hn.symm.trans hn'))
      exact ih hq'

end Table

/-- The slot that serves an alias is the one at the place that serves it. -/
theorem Variable.targetSlot?_eq (v : Variable) (mode : Option String) :
    v.targetSlot? mode = (v.placeFor? mode).bind fun p => v.slot? p.mode := by
  cases mode with
  | none =>
    simp only [targetSlot?, placeFor?]
    split_ifs <;> rfl
  | some m =>
    simp only [targetSlot?, placeFor?, slotFor]
    by_cases hm : v.modes.contains m
    · obtain ⟨s, hs⟩ := Option.isSome_iff_exists.1 hm
      simp [hm, hs, slot?]
    · have hn : v.modes.get? m = none := by
        rwa [SortedMap.contains, Option.not_isSome_iff_eq_none] at hm
      cases v.declared <;> simp [hm, hn, slot?]

theorem Variable.name_of_placeFor? {v : Variable} {mode : Option String} {p : Place}
    (h : v.placeFor? mode = some p) : p.name = v.name := by
  cases mode with
  | none =>
    simp only [placeFor?] at h
    split_ifs at h
    cases h
    rfl
  | some m =>
    simp only [placeFor?] at h
    split_ifs at h <;> cases h <;> rfl

theorem Variable.placeFor?_congr {v w : Variable} (h : v.outline = w.outline)
    (mode : Option String) : v.placeFor? mode = w.placeFor? mode := by
  have hn : v.name = w.name := congrArg Outline.name h
  have hd : v.declared = w.declared := congrArg Outline.declared h
  have hk : v.modes.keys = w.modes.keys := congrArg Outline.modes h
  cases mode with
  | none => simp only [placeFor?, hn, hd]
  | some m => simp only [placeFor?, SortedMap.contains_iff_mem_keys, hn, hd, hk]

namespace Table

theorem successor?_congr {t t' : Table} (h : t'.outline = t.outline) (snapshot : Snapshot)
    (target : String) (mode : Option String) :
    t'.successor? snapshot target mode = t.successor? snapshot target mode := by
  unfold successor?
  rcases get?_cases_of_outline_eq h target with ⟨hv, hv'⟩ | ⟨v, v', hv, hv', ho⟩
  · rw [hv, hv']
  · simp only [hv, hv', Variable.placeFor?_congr ho]

/-- An alias takes the value at its successor, if there is one by now. -/
theorem targetValue?_eq (t : Table) (snapshot : Snapshot) (a : Alias) :
    t.targetValue? snapshot a = (t.successor? snapshot a.target a.mode).bind fun
      | .place q => (t.slot? q).bind Slot.concrete?
      | .value c => some c := by
  unfold targetValue? successor?
  cases h : t.get? a.target with
  | none => cases snapshot.get? a.target <;> rfl
  | some v =>
    simp only [v.targetSlot?_eq]
    cases hp : v.placeFor? a.mode with
    | none => rfl
    | some p =>
      have : p.name = a.target := (v.name_of_placeFor? hp).trans (name_of_get? h)
      simp [slot?, this, h]

end Table

/-! ## Waiting slots -/

def Alias.place (a : Alias) : Place := ⟨a.name, a.mode⟩

theorem Slot.alias?_eq_some_iff {s : Slot} {name : String} {mode : Option String} {a : Alias} :
    s.alias? name mode = some a ↔ a.place = ⟨name, mode⟩ ∧ s.value = .alias a.target := by
  obtain ⟨c | target, _⟩ := s
  · simp [alias?, Value.target?]
  · obtain ⟨n, t, m⟩ := a
    simp only [alias?, Value.target?, Option.map_some, Option.some.injEq, Alias.mk.injEq,
      Alias.place, Place.mk.injEq, Value.alias.injEq]
    constructor
    · rintro ⟨rfl, rfl, rfl⟩
      exact ⟨⟨rfl, rfl⟩, rfl⟩
    · rintro ⟨⟨rfl, rfl⟩, rfl⟩
      exact ⟨rfl, rfl, rfl⟩

theorem Variable.mem_aliases_iff {v : Variable} {a : Alias} : a ∈ v.aliases ↔
    a.name = v.name ∧ ∃ s, v.slot? a.mode = some s ∧ s.value = .alias a.target := by
  simp only [aliases, List.mem_append, Option.mem_toList, List.mem_filterMap,
    Slot.alias?_eq_some_iff, Alias.place, Place.mk.injEq, Prod.exists]
  obtain ⟨name, target, mode⟩ := a
  cases mode with
  | none => simp [slot?]
  | some m =>
    simp only [reduceCtorEq, and_false, false_and, false_or, Option.some.injEq, slot?]
    constructor
    · rintro ⟨k, s, hm, ⟨rfl, rfl⟩, hs⟩
      exact ⟨rfl, s, (v.modes.mem_entries_iff m s).1 hm, hs⟩
    · rintro ⟨rfl, s, hm, hs⟩
      exact ⟨m, s, (v.modes.mem_entries_iff m s).2 hm, ⟨rfl, rfl⟩, hs⟩

theorem Variable.aliases_nodup (v : Variable) : v.aliases.Nodup := by
  unfold aliases
  rw [List.nodup_append]
  refine ⟨by cases v.base.alias? v.name none <;> simp, ?_, ?_⟩
  · rw [List.Nodup, List.pairwise_filterMap]
    refine v.modes.sorted.imp fun {e e'} hlt a ha b hb => ?_
    rintro rfl
    have h := (Slot.alias?_eq_some_iff.1 ha).1.symm.trans (Slot.alias?_eq_some_iff.1 hb).1
    simp only [Place.mk.injEq, Option.some.injEq, true_and] at h
    exact String.lt_irrefl _ (h ▸ hlt)
  · rintro a ha b hb rfl
    obtain ⟨e, _, he⟩ := List.mem_filterMap.1 hb
    have h := (Slot.alias?_eq_some_iff.1 (Option.mem_toList.1 ha)).1.symm.trans
      (Slot.alias?_eq_some_iff.1 he).1
    simp at h

namespace Table

theorem mem_aliases_iff {t : Table} {a : Alias} :
    a ∈ t.aliases ↔ ∃ s, t.slot? a.place = some s ∧ s.value = .alias a.target := by
  simp only [aliases, List.mem_flatMap, Variable.mem_aliases_iff]
  constructor
  · rintro ⟨v, hv, hn, s, hs, ha⟩
    refine ⟨s, ?_, ha⟩
    simp only [slot?, Alias.place, hn, get?_of_mem hv]
    exact hs
  · rintro ⟨s, hs, ha⟩
    obtain ⟨v, hv, hs⟩ := Option.bind_eq_some_iff.1 hs
    exact ⟨v, mem_of_get? hv, (name_of_get? hv).symm, s, hs, ha⟩

theorem aliases_nodup (t : Table) : t.aliases.Nodup := by
  unfold aliases
  rw [List.nodup_flatMap]
  refine ⟨fun v _ => v.aliases_nodup, ?_⟩
  refine (List.pairwise_map.1 t.distinct).imp fun {v w} hne a hv hw => hne ?_
  exact (Variable.mem_aliases_iff.1 hv).1.symm.trans (Variable.mem_aliases_iff.1 hw).1

theorem place_injOn {t : Table} {a b : Alias} (ha : a ∈ t.aliases)
    (hb : b ∈ t.aliases) (hp : a.place = b.place) : a = b := by
  obtain ⟨s, hs, ha⟩ := mem_aliases_iff.1 ha
  obtain ⟨s', hs', hb⟩ := mem_aliases_iff.1 hb
  obtain rfl := Option.some.inj (hs.symm.trans ((congrArg t.slot? hp).trans hs'))
  obtain ⟨n, g, m⟩ := a
  obtain ⟨n', g', m'⟩ := b
  cases hp
  obtain rfl := Value.alias.inj (ha.symm.trans hb)
  rfl

theorem slot?_settle (t : Table) (a : Alias) (c : Concrete) (p : Place) :
    (t.settle a c).slot? p = if a.place = p then
      (t.slot? p).map fun _ => .settle a.target (.concrete c) else t.slot? p := by
  obtain ⟨n, m⟩ := p
  simp only [slot?, settle, Alias.place, Place.mk.injEq,
    get?_modify]
  by_cases hn : a.name = n
  · subst hn
    cases h : t.get? a.name with
    | none => simp
    | some v => simp [v.slot?_setSlot]
  · simp [hn]

theorem outline_settle (t : Table) (a : Alias) (c : Concrete) :
    (t.settle a c).outline = t.outline :=
  outline_modify t a.name _ fun v => v.outline_setSlot _ a.mode

end Table

end DesignVars
