import DesignVars.Proofs.Alias

/-!
# What settling aliases comes to

A round changes the table while it goes through it. The order does not matter in the end: a slot is
settled exactly if following the aliases of the table as it was leads to a value.

* `Settling`: the invariant of all rounds, with `Settling.settle` for one alias and
  `Settling.round`, `Settling.rounds` for many;
* `Settling.complete`: once nothing more can be settled, all that reaches a value is settled;
* `Resolution.Exact`, **`resolve_exact`**: what `resolve` does to each slot, and which aliases it
  gives back.
-/

namespace DesignVars

variable {snapshot : Snapshot} {t₀ t : Table}

/-! ## The invariant -/

/-- A table on the way from `t₀`, and the aliases that have not been settled: every slot is as it
was, or it holds the value that it reaches in `t₀`. -/
structure Settling (snapshot : Snapshot) (t₀ t : Table) (as : List Alias) : Prop where
  outline : t.outline = t₀.outline
  slot : ∀ p, t.slot? p = t₀.slot? p ∨ ∃ s target c, t₀.slot? p = some s ∧
    s.value = .alias target ∧ t₀.Reaches snapshot p c ∧
    t.slot? p = some (.settle target (.concrete c))
  sublist : as.Sublist t₀.aliases
  waiting : ∀ a ∈ as, t.slot? a.place = t₀.slot? a.place
  settled : ∀ a ∈ t₀.aliases, a ∉ as → ∃ c, t.slot? a.place = some (.settle a.target (.concrete c))

theorem Settling.start (snapshot : Snapshot) (t₀ : Table) :
    Settling snapshot t₀ t₀ t₀.aliases where
  outline := rfl
  slot _ := .inl rfl
  sublist := List.Sublist.refl _
  waiting _ _ := rfl
  settled _ h h' := absurd h h'

theorem Settling.reaches {as : List Alias} (h : Settling snapshot t₀ t as) {p : Place}
    {c : Concrete} (hc : (t.slot? p).bind Slot.concrete? = some c) : t₀.Reaches snapshot p c := by
  rcases h.slot p with hs | ⟨s, target, c', _, _, hr, hs⟩
  · rw [hs] at hc
    obtain ⟨⟨v, o⟩, hs, hc⟩ := Option.bind_eq_some_iff.1 hc
    refine .here hs ?_
    cases v with
    | concrete c' => rw [Option.some.inj hc]
    | _ => cases hc
  · rw [hs] at hc
    exact Option.some.inj hc ▸ hr

theorem Settling.reaches_of_targetValue? {as : List Alias} (h : Settling snapshot t₀ t as)
    {a : Alias} (ha : a ∈ t₀.aliases) {c : Concrete} (hc : t.targetValue? snapshot a = some c) :
    t₀.Reaches snapshot a.place c := by
  obtain ⟨s, hs, hv⟩ := Table.mem_aliases_iff.1 ha
  rw [Table.targetValue?_eq, Table.successor?_congr h.outline] at hc
  obtain ⟨n, hn, hc⟩ := Option.bind_eq_some_iff.1 hc
  cases n with
  | value c' =>
    obtain rfl := Option.some.inj hc
    exact .value hs hv hn
  | place q => exact .place hs hv hn (h.reaches hc)

/-- **Settling an alias keeps the invariant**, and takes the alias off the list. -/
theorem Settling.settle {front back : List Alias} {a : Alias}
    (h : Settling snapshot t₀ t (front ++ a :: back)) {c : Concrete}
    (hc : t.targetValue? snapshot a = some c) :
    Settling snapshot t₀ (t.settle a c) (front ++ back) := by
  have mem : a ∈ front ++ a :: back := List.mem_append_right _ List.mem_cons_self
  have ha : a ∈ t₀.aliases := h.sublist.subset mem
  have hr := h.reaches_of_targetValue? ha hc
  have hnd : (front ++ a :: back).Nodup := (Table.aliases_nodup _).sublist h.sublist
  have sub : (front ++ back).Sublist (front ++ a :: back) :=
    (List.Sublist.refl front).append (List.sublist_cons_self a back)
  have ne : ∀ b ∈ front ++ back, a.place ≠ b.place := by
    intro b hb hp
    obtain rfl := Table.place_injOn ha (h.sublist.subset (sub.subset hb)) hp
    exact (List.nodup_cons.1 (List.nodup_middle.1 hnd)).1 hb
  obtain ⟨s, hs, hv⟩ := Table.mem_aliases_iff.1 ha
  have new : (t.settle a c).slot? a.place = some (.settle a.target (.concrete c)) := by
    rw [Table.slot?_settle, if_pos rfl, h.waiting a mem, hs]
    rfl
  refine ⟨(t.outline_settle a c).trans h.outline, fun p => ?_, sub.trans h.sublist, ?_, ?_⟩
  · by_cases hp : a.place = p
    · subst hp
      exact .inr ⟨s, a.target, c, hs, hv, hr, new⟩
    · rw [Table.slot?_settle, if_neg hp]
      exact h.slot p
  · intro b hb
    rw [Table.slot?_settle, if_neg (ne b hb)]
    exact h.waiting b (sub.subset hb)
  · intro b hb hnot
    by_cases hp : a.place = b.place
    · obtain rfl := Table.place_injOn ha hb hp
      exact ⟨c, new⟩
    · rw [Table.slot?_settle, if_neg hp]
      refine h.settled b hb fun hb' => ?_
      rcases List.mem_append.1 hb' with hb' | hb'
      · exact hnot (List.mem_append_left _ hb')
      · rcases List.mem_cons.1 hb' with rfl | hb'
        · exact hp rfl
        · exact hnot (List.mem_append_right _ hb')

/-! ## Rounds -/

/-- A round keeps the invariant. `front` holds what it has passed by. -/
theorem Settling.round {as : List Alias} : ∀ {front : List Alias} {t : Table},
    Settling snapshot t₀ t (front ++ as) →
      Settling snapshot t₀ (round snapshot t as).1 (front ++ (round snapshot t as).2) := by
  induction as with
  | nil => exact fun h => h
  | cons a as ih =>
    intro front t h
    unfold DesignVars.round
    cases hc : t.targetValue? snapshot a with
    | some c => exact ih (h.settle hc)
    | none =>
      rw [List.append_cons] at h
      have := ih h
      rwa [List.append_assoc] at this

theorem length_round_le (snapshot : Snapshot) (as : List Alias) : ∀ t : Table,
    (round snapshot t as).2.length ≤ as.length := by
  induction as with
  | nil => exact fun _ => Nat.le_refl _
  | cons a as ih =>
    intro t
    unfold round
    cases t.targetValue? snapshot a with
    | some c => exact Nat.le_succ_of_le (ih _)
    | none => exact Nat.succ_le_succ (ih t)

/-- A round that settles nothing leaves the table as it is, and no alias has a value. -/
theorem round_of_length_eq {as : List Alias} : ∀ {t : Table},
    (round snapshot t as).2.length = as.length → round snapshot t as = (t, as) ∧
      ∀ a ∈ as, t.targetValue? snapshot a = none := by
  induction as with
  | nil => exact fun _ => ⟨rfl, fun _ h => nomatch h⟩
  | cons a as ih =>
    intro t h
    unfold round at h ⊢
    cases hc : t.targetValue? snapshot a with
    | some c =>
      rw [hc] at h
      have := length_round_le snapshot as (t.settle a c)
      simp only [List.length_cons] at h
      omega
    | none =>
      rw [hc] at h
      obtain ⟨he, hn⟩ := ih (Nat.succ.inj h)
      rw [he]
      refine ⟨rfl, fun b hb => ?_⟩
      rcases List.mem_cons.1 hb with rfl | hb
      · exact hc
      · exact hn b hb

theorem rounds_succ (n : ℕ) (t : Table) (as : List Alias) : rounds snapshot (n + 1) t as =
    if as.isEmpty then ⟨t, as, 0⟩
    else if (round snapshot t as).2.length = as.length then
      ⟨(round snapshot t as).1, (round snapshot t as).2, 1⟩
    else
      { rounds snapshot n (round snapshot t as).1 (round snapshot t as).2 with
        rounds :=
          (rounds snapshot n (round snapshot t as).1 (round snapshot t as).2).rounds + 1 } :=
  rfl

/-- As many rounds as there are aliases keep the invariant, and no alias that is left has a
value. -/
theorem Settling.rounds {n : ℕ} : ∀ {t : Table} {as : List Alias},
    Settling snapshot t₀ t as → as.length ≤ n →
      Settling snapshot t₀ (rounds snapshot n t as).table (rounds snapshot n t as).unresolved ∧
        ∀ a ∈ (rounds snapshot n t as).unresolved,
          (rounds snapshot n t as).table.targetValue? snapshot a = none := by
  induction n with
  | zero =>
    intro t as h hn
    obtain rfl := List.length_eq_zero_iff.1 (Nat.le_zero.1 hn)
    exact ⟨h, fun _ h => nomatch h⟩
  | succ n ih =>
    intro t as h hn
    have hr : Settling snapshot t₀ (DesignVars.round snapshot t as).1
        ([] ++ (DesignVars.round snapshot t as).2) := Settling.round h
    have hle := length_round_le snapshot as t
    rw [rounds_succ]
    split_ifs with he hl
    · rw [List.isEmpty_iff.1 he] at h ⊢
      exact ⟨h, fun _ h => nomatch h⟩
    · obtain ⟨heq, hnone⟩ := round_of_length_eq hl
      rw [heq]
      exact ⟨h, hnone⟩
    · exact ih hr (by omega)

/-- **Once no alias that is left has a value, every place that reaches a value holds it.** -/
theorem Settling.complete {as : List Alias} (h : Settling snapshot t₀ t as)
    (hstuck : ∀ a ∈ as, t.targetValue? snapshot a = none) {p : Place} {c : Concrete}
    (hp : t₀.Reaches snapshot p c) : (t.slot? p).bind Slot.concrete? = some c := by
  -- an alias that is not left is settled, with the one value that its place reaches
  have key : ∀ {p s target c}, t₀.slot? p = some s → s.value = .alias target →
      t₀.Reaches snapshot p c → t.targetValue? snapshot ⟨p.name, target, p.mode⟩ ≠ none →
      (t.slot? p).bind Slot.concrete? = some c := by
    intro p s target c hs ha hr hv
    have hmem : (⟨p.name, target, p.mode⟩ : Alias) ∈ t₀.aliases :=
      Table.mem_aliases_iff.2 ⟨s, hs, ha⟩
    obtain ⟨c', hc'⟩ := h.settled _ hmem fun hin => hv (hstuck _ hin)
    have hb : (t.slot? p).bind Slot.concrete? = some c' := by
      change (t.slot? (Alias.place ⟨p.name, target, p.mode⟩)).bind Slot.concrete? = some c'
      rw [hc']
      rfl
    rw [hb, (h.reaches hb).unique hr]
  induction hp with
  | @here p s c hs hc =>
    rcases h.slot p with he | ⟨s', target, c', hs', ha, _, _⟩
    · rw [he, hs, Option.bind_some, Slot.concrete?, hc]
      rfl
    · obtain rfl := Option.some.inj (hs.symm.trans hs')
      rw [hc] at ha
      cases ha
  | @value p s target c hs ha hn =>
    refine key hs ha (.value hs ha hn) ?_
    rw [Table.targetValue?_eq, Table.successor?_congr h.outline, hn]
    exact Option.some_ne_none c
  | @place p q s target c hs ha hn hq ih =>
    refine key hs ha (.place hs ha hn hq) ?_
    rw [Table.targetValue?_eq, Table.successor?_congr h.outline, hn]
    change (t.slot? q).bind Slot.concrete? ≠ none
    rw [ih]
    exact Option.some_ne_none c

/-! ## The result -/

/-- What a resolution of a table amounts to. -/
structure Resolution.Exact (t : Table) (snapshot : Snapshot) (r : Resolution) : Prop where
  /-- Names, order, descriptions, modes and which variables have a base value are as they were. -/
  outline : r.table.outline = t.outline
  /-- A slot that holds a value keeps it. -/
  kept : ∀ p s c, t.slot? p = some s → s.value = .concrete c → r.table.slot? p = some s
  /-- A slot that reaches a value holds it, and names its own target. -/
  settled : ∀ p s target c, t.slot? p = some s → s.value = .alias target →
    t.Reaches snapshot p c → r.table.slot? p = some ⟨.concrete c, some target⟩
  /-- A slot that reaches no value waits as before. -/
  stuck : ∀ p s, t.slot? p = some s → (∀ c, ¬ t.Reaches snapshot p c) → r.table.slot? p = some s
  /-- What is given back are the slots that wait and reach no value, -/
  mem_unresolved : ∀ a, a ∈ r.unresolved ↔ (∃ s, t.slot? a.place = some s ∧
    s.value = .alias a.target) ∧ ∀ c, ¬ t.Reaches snapshot a.place c
  /-- each once -/
  nodup : r.unresolved.Nodup
  /-- and in the order of the table. -/
  sublist : r.unresolved.Sublist t.aliases

theorem exact_resolve (t : Table) (snapshot : Snapshot) :
    (resolve t snapshot).Exact t snapshot := by
  obtain ⟨h, hstuck⟩ := Settling.rounds (Settling.start snapshot t) (Nat.le_refl _)
  change Settling snapshot t (resolve t snapshot).table (resolve t snapshot).unresolved at h
  refine ⟨h.outline, fun p s c hs hc => ?_, fun p s target c hs ha hr => ?_, fun p s hs hn => ?_,
    fun a => ?_, (Table.aliases_nodup _).sublist h.sublist, h.sublist⟩
  · rcases h.slot p with he | ⟨s', target, c', hs', ha, _, _⟩
    · rw [he, hs]
    · obtain rfl := Option.some.inj (hs.symm.trans hs')
      rw [hc] at ha
      cases ha
  · have hc := h.complete hstuck hr
    rcases h.slot p with he | ⟨s', target', c', hs', ha', hr', he⟩
    · rw [he, hs, Option.bind_some, Slot.concrete?, ha] at hc
      cases hc
    · obtain rfl := Option.some.inj (hs.symm.trans hs')
      obtain rfl := Value.alias.inj (ha.symm.trans ha')
      rw [he, hr'.unique hr]
      rfl
  · rcases h.slot p with he | ⟨_, _, c, _, _, hr, _⟩
    · rw [he, hs]
    · exact absurd hr (hn c)
  · rw [← Table.mem_aliases_iff]
    constructor
    · intro ha
      have hmem := h.sublist.subset ha
      refine ⟨hmem, fun c hr => ?_⟩
      obtain ⟨s, hs, hv⟩ := Table.mem_aliases_iff.1 hmem
      have hc := h.complete hstuck hr
      rw [h.waiting a ha, hs, Option.bind_some, Slot.concrete?, hv] at hc
      cases hc
    · rintro ⟨hmem, hn⟩
      by_contra ha
      obtain ⟨c, hc⟩ := h.settled a hmem ha
      refine hn c (h.reaches ?_)
      rw [hc]
      rfl

/-- **Settling the aliases of a table that any operations made finds exactly the values that their
slots reach.** -/
theorem resolve_exact (ops : List TableOp) (snapshot : Snapshot) :
    (resolve (Table.run ops) snapshot).Exact (Table.run ops) snapshot :=
  exact_resolve (Table.run ops) snapshot

end DesignVars
