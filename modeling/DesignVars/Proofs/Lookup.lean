import DesignVars.Proofs.Report
import Mathlib.Data.Fintype.Pigeonhole
import Mathlib.Logic.Relation
import Mathlib.Order.Monotone.Basic

/-!
# Looking values up and settling aliases agree

While a stylesheet is read, a name is looked up along the aliases of base values, with one hop for
each variable. In the end the same aliases are settled in rounds. Both come to the same value, but
for variables without a base value: only a look-up goes past them to the snapshot.

* `Table.next?`, `Table.Ends`, `Table.Cycles`: the chain of aliases from a name, which ends after
  some hops or runs into a cycle (`Table.ends_or_cycles`);
* `Table.Ends.le_size`: a chain that ends has no more hops than there are variables;
* `Table.follow_of_ends`, `Table.follow_of_cycles`: so looking up finds the end of every chain, and
  nothing on a cycle;
* `Table.reaches_or_modal`: what it finds there is what settling finds, or a value of the snapshot
  for a variable without a base value;
* `Table.LookupAgrees`, **`lookup_resolve`**.
-/

namespace DesignVars

namespace Table

variable (t : Table) (snapshot : Snapshot)

/-! ## Chains of aliases -/

/-- The name that the base value of a declared variable refers to. -/
def next? (name : String) : Option String :=
  (t.declared? name).bind fun v => v.base.value.target?

/-- Following aliases of base values from a name ends after `k` hops, at `last`. -/
inductive Ends : String → Nat → String → Prop
  | here {name : String} (h : t.next? name = none) : Ends name 0 name
  | hop {name target last : String} {k : Nat} (h : t.next? name = some target)
      (hk : Ends target k last) : Ends name (k + 1) last

/-- One name refers to the other by the alias in its base value. -/
def Refers (name target : String) : Prop := t.next? name = some target

/-- Following aliases of base values from a name comes to one that leads back to itself. -/
def Cycles (name : String) : Prop :=
  ∃ a, Relation.ReflTransGen t.Refers name a ∧ Relation.TransGen t.Refers a a

/-- What looking up finds at the end of a chain: the base value if the name is declared, and what
the snapshot holds if not. -/
def valueAt? (name : String) : Option Concrete :=
  match t.declared? name with
  | some v => v.base.concrete?
  | none => snapshot.get? name

/-- A name that the table holds without a base value. -/
def IsModal (name : String) : Prop := ∃ v, t.get? name = some v ∧ v.declared = false

variable {t snapshot}

theorem declared?_eq_some_iff {name : String} {v : Variable} :
    t.declared? name = some v ↔ t.get? name = some v ∧ v.declared = true :=
  Option.filter_eq_some_iff

theorem slot?_of_declared? {name : String} {v : Variable} (h : t.declared? name = some v) :
    t.slot? ⟨name, none⟩ = some v.base := by
  rw [slot?, (declared?_eq_some_iff.1 h).1, Option.bind_some]
  rfl

theorem next?_of_declared? {name : String} {v : Variable} (h : t.declared? name = some v) :
    t.next? name = v.base.value.target? := by
  rw [next?, h, Option.bind_some]

theorem next?_eq_some_iff {name target : String} : t.next? name = some target ↔
    ∃ v, t.declared? name = some v ∧ v.base.value = .alias target := by
  rw [next?, Option.bind_eq_some_iff]
  refine exists_congr fun v => and_congr_right fun _ => ?_
  rcases v.base.value with c | target' <;> simp [Value.target?]

theorem mem_names_of_next? {name target : String} (h : t.next? name = some target) :
    name ∈ t.names := by
  obtain ⟨v, hv, -⟩ := next?_eq_some_iff.1 h
  have hget := (declared?_eq_some_iff.1 hv).1
  exact name_of_get? hget ▸ List.mem_map_of_mem (mem_of_get? hget)

section Ends

variable {name last : String} {k : Nat}

theorem Ends.unique (h : t.Ends name k last) {k' : Nat} {last' : String}
    (h' : t.Ends name k' last') : k = k' ∧ last = last' := by
  induction h generalizing k' with
  | here hn =>
    cases h' with
    | here => exact ⟨rfl, rfl⟩
    | hop hs _ => simp_all
  | hop hs _ ih =>
    cases h' with
    | here hn => simp_all
    | hop hs' hk' =>
      obtain rfl := Option.some.inj (hs.symm.trans hs')
      obtain ⟨rfl, rfl⟩ := ih hk'
      exact ⟨rfl, rfl⟩

theorem Ends.of_refers (h : t.Ends name k last) {target : String} (hr : t.Refers name target) :
    ∃ j < k, t.Ends target j last := by
  cases h with
  | here hn => simp_all [Refers]
  | hop hs hk =>
    obtain rfl := Option.some.inj (hs.symm.trans hr)
    exact ⟨_, Nat.lt_succ_self _, hk⟩

theorem Ends.of_transGen (h : t.Ends name k last) {other : String}
    (hr : Relation.TransGen t.Refers name other) : ∃ j < k, t.Ends other j last := by
  induction hr with
  | single hr => exact h.of_refers hr
  | tail _ hr ih =>
    obtain ⟨j, hj, hends⟩ := ih
    obtain ⟨i, hi, hends⟩ := hends.of_refers hr
    exact ⟨i, hi.trans hj, hends⟩

/-- No name comes twice on a chain that ends, since its rest would have two lengths. -/
theorem Ends.exists_nodup (h : t.Ends name k last) : ∃ passed : List String,
    passed.length = k ∧ passed.Nodup ∧ passed ⊆ t.names ∧
      ∀ n ∈ passed, ∃ j ≤ k, t.Ends n j last := by
  induction h with
  | here => exact ⟨[], rfl, List.nodup_nil, List.nil_subset _, nofun⟩
  | @hop name target last k hs hk ih =>
    obtain ⟨passed, hlen, hnodup, hsub, hends⟩ := ih
    have hall : t.Ends name (k + 1) last := .hop hs hk
    refine ⟨name :: passed, by rw [List.length_cons, hlen], List.nodup_cons.2 ⟨?_, hnodup⟩,
      List.cons_subset.2 ⟨mem_names_of_next? hs, hsub⟩, ?_⟩
    · intro hmem
      obtain ⟨j, hj, hj'⟩ := hends name hmem
      have := (hall.unique hj').1
      omega
    · intro n hn
      rcases List.mem_cons.1 hn with rfl | hn
      · exact ⟨k + 1, Nat.le_refl _, hall⟩
      · obtain ⟨j, hj, hj'⟩ := hends n hn
        exact ⟨j, Nat.le_succ_of_le hj, hj'⟩

/-- **A chain that ends has no more hops than there are variables.** -/
theorem Ends.le_size (h : t.Ends name k last) : k ≤ t.size := by
  obtain ⟨passed, rfl, hnodup, hsub, -⟩ := h.exists_nodup
  have := (hnodup.subperm hsub).length_le
  rwa [names, List.length_map] at this

theorem Cycles.not_ends (h : t.Cycles name) : ¬ t.Ends name k last := by
  obtain ⟨a, hto, haround⟩ := h
  intro hends
  have ha : ∃ j, t.Ends a j last := by
    rcases Relation.reflTransGen_iff_eq_or_transGen.1 hto with rfl | hto
    · exact ⟨k, hends⟩
    · obtain ⟨j, -, hj⟩ := hends.of_transGen hto
      exact ⟨j, hj⟩
  obtain ⟨j, hj⟩ := ha
  obtain ⟨i, hi, hi'⟩ := hj.of_transGen haround
  exact absurd (hj.unique hi').1 (Nat.ne_of_gt hi)

end Ends

/-- A walk along the chain, which stays where the chain ends. -/
def walk (t : Table) (name : String) (i : Nat) : String :=
  (fun n => (t.next? n).getD n)^[i] name

theorem walk_succ (name : String) (i : Nat) :
    t.walk name (i + 1) = (t.next? (t.walk name i)).getD (t.walk name i) :=
  Function.iterate_succ_apply' _ i name

theorem ends_of_walk {name : String} {i : Nat} (h : t.next? (t.walk name i) = none) :
    ∃ k last, t.Ends name k last := by
  induction i generalizing name with
  | zero => exact ⟨0, name, .here h⟩
  | succ i ih =>
    cases hn : t.next? name with
    | none => exact ⟨0, name, .here hn⟩
    | some target =>
      have hwalk : t.walk name (i + 1) = t.walk target i := by
        rw [walk, Function.iterate_succ_apply, hn, Option.getD_some, walk]
      obtain ⟨k, last, hk⟩ := ih (hwalk ▸ h)
      exact ⟨k + 1, last, .hop hn hk⟩

/-- **A chain of aliases ends or runs into a cycle**, as there are only so many variables. -/
theorem ends_or_cycles (t : Table) (name : String) :
    (∃ k last, t.Ends name k last) ∨ t.Cycles name := by
  by_cases hends : ∃ k last, t.Ends name k last
  · exact .inl hends
  refine .inr ?_
  have step : ∀ i, t.Refers (t.walk name i) (t.walk name (i + 1)) := by
    intro i
    cases hn : t.next? (t.walk name i) with
    | none => exact absurd (ends_of_walk hn) hends
    | some target => rw [walk_succ, hn, Option.getD_some, Refers, hn]
  let f : ℕ → {n // n ∈ t.names} := fun i => ⟨t.walk name i, mem_names_of_next? (step i)⟩
  obtain ⟨i, j, hne, hf⟩ := Finite.exists_ne_map_eq_of_infinite f
  have hij : t.walk name i = t.walk name j := congrArg Subtype.val hf
  clear hf
  wlog hlt : i < j generalizing i j
  · exact this j i hne.symm hij.symm (by omega)
  refine ⟨t.walk name i, ?_, ?_⟩
  · exact Nat.rel_of_forall_rel_succ_of_le (Relation.ReflTransGen t.Refers) (f := t.walk name)
      (fun n => .single (step n)) (Nat.zero_le i)
  · have hto := Nat.rel_of_forall_rel_succ_of_lt (Relation.TransGen t.Refers) (f := t.walk name)
      (fun n => .single (step n)) hlt
    rwa [← hij] at hto

/-! ## Looking up -/

theorem follow_succ (t : Table) (snapshot : Snapshot) (hops : Nat) (name : String) :
    t.follow snapshot (hops + 1) name = match t.next? name with
      | some target => t.follow snapshot hops target
      | none => t.valueAt? snapshot name := by
  rw [follow]
  cases hd : t.declared? name with
  | none => simp only [next?, valueAt?, hd, Option.bind_none]
  | some v =>
    rw [next?_of_declared? hd]
    simp only [valueAt?, hd, Slot.concrete?]
    cases v.base.value <;> rfl

theorem follow_of_ends {name last : String} {k : Nat} (h : t.Ends name k last) {hops : Nat}
    (hk : k < hops) : t.follow snapshot hops name = t.valueAt? snapshot last := by
  induction h generalizing hops with
  | here hn =>
    obtain ⟨hops, rfl⟩ := Nat.exists_eq_succ_of_ne_zero (Nat.ne_of_gt hk)
    rw [follow_succ, hn]
  | hop hs _ ih =>
    obtain ⟨hops, rfl⟩ := Nat.exists_eq_succ_of_ne_zero (Nat.ne_zero_of_lt hk)
    rw [follow_succ, hs]
    exact ih (Nat.lt_of_succ_lt_succ hk)

theorem follow_of_cycles {name : String} (h : t.Cycles name) (hops : Nat) :
    t.follow snapshot hops name = none := by
  have hno : ∀ k last, ¬ t.Ends name k last := fun _ _ => h.not_ends
  clear h
  induction hops generalizing name with
  | zero => rfl
  | succ hops ih =>
    rw [follow_succ]
    cases hn : t.next? name with
    | none => exact absurd (.here hn) (hno 0 name)
    | some target => exact ih fun k last hk => hno (k + 1) last (.hop hn hk)

theorem lookup_of_ends {name last : String} {k : Nat} (h : t.Ends name k last) :
    t.lookup snapshot name = t.valueAt? snapshot last :=
  follow_of_ends h (Nat.lt_succ_of_le h.le_size)

theorem lookup_eq_some_iff {name : String} {c : Concrete} : t.lookup snapshot name = some c ↔
    ∃ k last, t.Ends name k last ∧ t.valueAt? snapshot last = some c := by
  constructor
  · intro h
    rcases t.ends_or_cycles name with ⟨k, last, hk⟩ | hc
    · exact ⟨k, last, hk, (lookup_of_ends hk).symm.trans h⟩
    · rw [lookup, follow_of_cycles hc] at h
      cases h
  · rintro ⟨k, last, hk, h⟩
    exact (lookup_of_ends hk).trans h

/-! ## Settling -/

theorem successor?_of_declared? {target : String} {v : Variable}
    (h : t.declared? target = some v) :
    t.successor? snapshot target none = some (.place ⟨target, none⟩) := by
  obtain ⟨hget, hd⟩ := declared?_eq_some_iff.1 h
  simp only [successor?, hget, Variable.placeFor?, hd, if_true, Option.map_some, name_of_get? hget]

theorem successor?_of_not_declared? {target : String} (h : t.declared? target = none)
    {n : Successor} (hn : t.successor? snapshot target none = some n) :
    ∃ c, n = .value c ∧ snapshot.get? target = some c := by
  unfold successor? at hn
  split at hn
  · rename_i v hget
    have hd : v.declared = false := by simpa [declared?, hget, Option.filter] using h
    simp [Variable.placeFor?, hd] at hn
  · obtain ⟨c, hc, rfl⟩ := Option.map_eq_some_iff.1 hn
    exact ⟨c, rfl, hc⟩

theorem Reaches.exists_ends {name : String} {v : Variable} (hd : t.declared? name = some v)
    {c : Concrete} (h : t.Reaches snapshot ⟨name, none⟩ c) :
    ∃ k last, t.Ends name k last ∧ t.valueAt? snapshot last = some c := by
  generalize hp : (⟨name, none⟩ : Place) = p at h
  induction h generalizing name v with
  | here hs hc =>
    subst hp
    obtain rfl := Option.some.inj ((slot?_of_declared? hd).symm.trans hs)
    refine ⟨0, name, .here ?_, ?_⟩
    · rw [next?_of_declared? hd, hc]
      rfl
    · simp only [valueAt?, hd, Slot.concrete?, hc, Value.concrete?]
  | @value _ s target c hs ha hn =>
    subst hp
    obtain rfl := Option.some.inj ((slot?_of_declared? hd).symm.trans hs)
    have hnext : t.next? name = some target := next?_eq_some_iff.2 ⟨v, hd, ha⟩
    cases ht : t.declared? target with
    | some w =>
      rw [successor?_of_declared? ht] at hn
      cases hn
    | none =>
      obtain ⟨c', hc', hget⟩ := successor?_of_not_declared? ht hn
      cases hc'
      refine ⟨1, target, .hop hnext (.here ?_), ?_⟩
      · rw [next?, ht, Option.bind_none]
      · simp only [valueAt?, ht, hget]
  | @place _ q s target c hs ha hn hq ih =>
    subst hp
    obtain rfl := Option.some.inj ((slot?_of_declared? hd).symm.trans hs)
    have hnext : t.next? name = some target := next?_eq_some_iff.2 ⟨v, hd, ha⟩
    cases ht : t.declared? target with
    | none =>
      obtain ⟨c', hc', -⟩ := successor?_of_not_declared? ht hn
      cases hc'
    | some w =>
      rw [successor?_of_declared? ht] at hn
      obtain ⟨k, last, hk, hlast⟩ := ih ht (Successor.place.inj (Option.some.inj hn))
      exact ⟨k + 1, last, .hop hnext hk, hlast⟩

/-- What a look-up finds at the end of a chain is what settling finds, unless the chain ends at a
variable without a base value. -/
theorem reaches_or_modal {name last : String} {k : Nat} (h : t.Ends name k last) {v : Variable}
    (hd : t.declared? name = some v) {c : Concrete} (hc : t.valueAt? snapshot last = some c) :
    t.Reaches snapshot ⟨name, none⟩ c ∨ t.IsModal last ∧ snapshot.get? last = some c := by
  induction h generalizing v with
  | @here name hn =>
    refine .inl (.here (slot?_of_declared? hd) ?_)
    simp only [valueAt?, hd, Slot.concrete?] at hc
    rcases hv : v.base.value with c' | target
    · rw [hv] at hc
      cases hc
      rfl
    · rw [hv] at hc
      cases hc
  | @hop name target last k hs hk ih =>
    obtain ⟨w, hw, ha⟩ := next?_eq_some_iff.1 hs
    obtain rfl := Option.some.inj (hd.symm.trans hw)
    cases ht : t.declared? target with
    | some w =>
      refine (ih ht hc).imp_left fun hr => ?_
      exact .place (slot?_of_declared? hd) ha (successor?_of_declared? ht) hr
    | none =>
      -- Nothing follows a name that is not declared.
      have hlast : last = target := by
        have hn : t.next? target = none := by rw [next?, ht, Option.bind_none]
        exact (hk.unique (.here hn)).2
      subst hlast
      have hget : snapshot.get? last = some c := by simpa only [valueAt?, ht] using hc
      cases hg : t.get? last with
      | none =>
        refine .inl (.value (slot?_of_declared? hd) ha ?_)
        rw [successor?, hg, hget]
        rfl
      | some w =>
        refine .inr ⟨⟨w, hg, ?_⟩, hget⟩
        simpa [declared?, hg, Option.filter] using ht

/-! ## Agreement -/

/-- What looking a declared name up comes to, beside what settling makes of its base value. -/
structure LookupAgrees (t : Table) (snapshot : Snapshot) (name : String) : Prop where
  /-- The base value is still there. -/
  kept : ((resolve t snapshot).table.slot? ⟨name, none⟩).isSome = true
  /-- It is settled with a value that is looked up under the name, -/
  settled : ∀ s c, (resolve t snapshot).table.slot? ⟨name, none⟩ = some s →
    s.value = .concrete c → t.lookup snapshot name = some c
  /-- or it waits, and a value is looked up exactly if the chain ends at a variable without a base
  value for which the snapshot holds that value. -/
  waiting : ∀ s, (resolve t snapshot).table.slot? ⟨name, none⟩ = some s → s.isPending = true →
    ∀ c, t.lookup snapshot name = some c ↔
      ∃ k last, t.Ends name k last ∧ t.IsModal last ∧ snapshot.get? last = some c
  /-- A chain without a cycle ends, -/
  ends : ¬ t.Cycles name → ∃ k last, t.Ends name k last
  /-- the number of hops never cuts such a chain off, -/
  complete : ∀ k last, t.Ends name k last →
    k ≤ t.size ∧ t.lookup snapshot name = t.valueAt? snapshot last
  /-- and nothing is looked up along a cycle. -/
  cyclic : t.Cycles name → t.lookup snapshot name = none

end Table

/-- **Looking a name up and settling its base value agree**, but for chains that end at a variable
without a base value. -/
theorem lookup_resolve (ops : List TableOp) (snapshot : Snapshot) {name : String} {v : Variable}
    (hd : (Table.run ops).declared? name = some v) :
    (Table.run ops).LookupAgrees snapshot name := by
  have hr := exact_resolve (Table.run ops) snapshot
  refine ⟨?_, fun s c hs hc => ?_, fun s hs hp c => ?_, fun hn => ?_, fun k last hk => ?_,
    fun hc => ?_⟩
  · rw [Table.slot?_isSome_congr hr.outline, Table.slot?_of_declared? hd, Option.isSome_some]
  · have hreach : (Table.run ops).Reaches snapshot ⟨name, none⟩ c := by
      rw [← hr.concrete?_eq_some_iff, hs]
      exact Value.concrete?_eq_some_iff.2 hc
    exact Table.lookup_eq_some_iff.2 (hreach.exists_ends hd)
  · have hno : ¬ (Table.run ops).Reaches snapshot ⟨name, none⟩ c := by
      rw [← hr.concrete?_eq_some_iff, hs, Option.bind_some, Slot.concrete?,
        Value.concrete?_eq_some_iff]
      intro hc
      rw [Slot.isPending, hc] at hp
      cases hp
    rw [Table.lookup_eq_some_iff]
    constructor
    · rintro ⟨k, last, hk, hc⟩
      exact ⟨k, last, hk, (Table.reaches_or_modal hk hd hc).resolve_left hno⟩
    · rintro ⟨k, last, hk, ⟨w, hw, hwd⟩, hc⟩
      refine ⟨k, last, hk, ?_⟩
      simpa [Table.valueAt?, Table.declared?, hw, hwd, Option.filter] using hc
  · exact ((Table.run ops).ends_or_cycles name).resolve_right hn
  · exact ⟨hk.le_size, Table.lookup_of_ends hk⟩
  · exact Table.follow_of_cycles hc _

/-- A chain of two aliases to a variable that only has a mode. -/
def toModal : List TableOp :=
  [.declare "a" (.alias "b") none, .declare "b" (.alias "m") none,
    .setMode "m" "dark" (.concrete (.color .zero))]

theorem lookup_resolve_toModal :
    let t := Table.run toModal
    let snapshot := Snapshot.empty.insert "m" (.concrete (.number 3.0))
    (t.declared? "a").isSome = true ∧
      ((resolve t snapshot).table.slot? ⟨"a", none⟩).map Slot.isPending = some true ∧
      (t.lookup snapshot "a").isSome = true ∧ t.LookupAgrees snapshot "a" := by
  intro t snapshot
  have hd : (t.declared? "a").isSome = true := by decide +kernel
  obtain ⟨v, hv⟩ := Option.isSome_iff_exists.1 hd
  exact ⟨hd, by decide +kernel, by decide +kernel, lookup_resolve toModal snapshot hv⟩

end DesignVars
