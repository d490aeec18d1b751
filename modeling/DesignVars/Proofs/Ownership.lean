import DesignVars.Proofs.Redeclaration

/-!
# Modes under later base values

A value that a mode block gives for a mode belongs to no base value, so base values come and go
without it. A base value that brings a value for the same mode takes the mode over, though, and the
mode goes with it when the next base value comes.

* `TakenOver`: operations after which a mode has gone with the base value that brought it;
* `takenOver_concat`, `exists_stands_iff`: one more operation, and what stands for a mode that was
  given: something, unless it was taken over;
* **`get?_modes_run_setMode`**: so a mode that was set is there in every later table, except when it
  was taken over since.
-/

namespace DesignVars

/-- The last operation that gives a value for the mode gives it along with a base value, and another
base value comes after it. -/
def TakenOver (m : String) (ops : List TableOp) : Prop :=
  ∃ before op after, ops = before ++ op :: after ∧ (op.modeValue? m).isSome = true ∧
    op.baseValue?.isSome = true ∧ (∀ op' ∈ after, op'.modeValue? m = none) ∧
    ∃ op' ∈ after, op'.baseValue?.isSome = true

section Operations

variable {m : String} {ops : List TableOp} {op : TableOp}

/-- A mode is taken over if it was before, or if its value stands along with a base value that is
replaced. Only another value for it brings it back. -/
theorem takenOver_concat : TakenOver m (ops ++ [op]) ↔ op.modeValue? m = none ∧
    (TakenOver m ops ∨ op.baseValue?.isSome = true ∧ ∃ x, Stands ops m x true) := by
  constructor
  · rintro ⟨before, op₁, after, he, hgiven, hbase, hnone, op', hop', hb⟩
    rcases List.eq_nil_or_concat after with rfl | ⟨after, last, rfl⟩
    · cases hop'
    rw [List.concat_eq_append] at he hnone hop'
    rw [← List.cons_append, ← List.append_assoc] at he
    obtain ⟨rfl, hlast⟩ := List.append_inj' he rfl
    obtain rfl := List.singleton_inj.1 hlast
    obtain ⟨hnone, hop⟩ := List.forall_mem_append.1 hnone
    refine ⟨hop op List.mem_cons_self, ?_⟩
    by_cases hkept : ∀ op' ∈ after, op'.baseValue? = none
    · -- the base value that came with the mode is replaced by the last operation only
      obtain ⟨x, hx⟩ := Option.isSome_iff_exists.1 hgiven
      refine .inr ⟨?_, x, before, op₁, after, rfl, hx, hbase, hnone, fun _ => hkept⟩
      rcases List.mem_append.1 hop' with hop' | hop'
      · rw [hkept op' hop'] at hb
        cases hb
      · rwa [← List.mem_singleton.1 hop']
    · push Not at hkept
      obtain ⟨op₂, hop₂, hb₂⟩ := hkept
      exact .inl ⟨before, op₁, after, rfl, hgiven, hbase, hnone, op₂, hop₂,
        Option.isSome_iff_ne_none.2 hb₂⟩
  · rintro ⟨hnone, ⟨before, op₁, after, rfl, hgiven, hbase, hafter, op', hop', hb⟩ |
      ⟨hb, x, before, op₁, after, rfl, hx, hbase, hafter, -⟩⟩
    · exact ⟨before, op₁, after ++ [op], by rw [List.append_assoc, List.cons_append], hgiven, hbase,
        List.forall_mem_append.2 ⟨hafter, List.forall_mem_singleton.2 hnone⟩, op',
        List.mem_append_left _ hop', hb⟩
    · have hgiven : (op₁.modeValue? m).isSome = true := by rw [hx]; rfl
      exact ⟨before, op₁, after ++ [op], by rw [List.append_assoc, List.cons_append], hgiven,
        hbase, List.forall_mem_append.2 ⟨hafter, List.forall_mem_singleton.2 hnone⟩, op,
        List.mem_append_right _ List.mem_cons_self, hb⟩

/-- **A value stands for a mode that was given one, unless the mode was taken over.** -/
theorem exists_stands_iff (h : ∃ op ∈ ops, (op.modeValue? m).isSome = true) :
    (∃ x inline, Stands ops m x inline) ↔ ¬ TakenOver m ops := by
  induction ops using List.reverseRecOn with
  | nil =>
    obtain ⟨op, hop, -⟩ := h
    cases hop
  | append_singleton ops op ih =>
    cases hop : op.modeValue? m with
    | some x =>
      refine iff_of_true ⟨x, _, stands_concat.2 (.inl ⟨hop, rfl⟩)⟩ fun ht => ?_
      rw [(takenOver_concat.1 ht).1] at hop
      cases hop
    | none =>
      have hops : ∃ op ∈ ops, (op.modeValue? m).isSome = true := by
        obtain ⟨op', hop', hs⟩ := h
        rcases List.mem_append.1 hop' with hop' | hop'
        · exact ⟨op', hop', hs⟩
        · rw [List.mem_singleton.1 hop', hop] at hs
          cases hs
      rw [takenOver_concat, not_and]
      constructor
      · rintro ⟨x, inline, hx⟩ - ht
        obtain ⟨hsome, -⟩ | ⟨-, hx, hkept⟩ := stands_concat.1 hx
        · rw [hop] at hsome
          cases hsome
        rcases ht with ht | ⟨hb, y, hy⟩
        · exact (ih hops).1 ⟨x, inline, hx⟩ ht
        · rw [hkept (hx.unique hy).2] at hb
          cases hb
      · intro hnot
        obtain ⟨hbefore, hreplaced⟩ := not_or.1 (hnot hop)
        obtain ⟨x, inline, hx⟩ := (ih hops).2 hbefore
        refine ⟨x, inline, stands_concat.2 (.inr ⟨hop, hx, ?_⟩)⟩
        rintro rfl
        by_contra hb
        exact hreplaced ⟨Option.isSome_iff_ne_none.2 hb, x, hx⟩

/-- What came before the mode was set plays no part. -/
theorem takenOver_append_setMode {before after : List TableOp} {name : String} {value : Value} :
    TakenOver m (before ++ .setMode name m value :: after) ↔ TakenOver m after := by
  have hset : (TableOp.setMode name m value).modeValue? m = some value := if_pos rfl
  constructor
  · rintro ⟨b, op, a, he, hgiven, hbase, hnone, hb⟩
    rcases List.append_eq_append_iff.1 he with ⟨c, rfl, hc⟩ | ⟨c, rfl, hc⟩
    · cases c with
      | nil =>
        obtain ⟨rfl, -⟩ := List.cons.inj hc
        cases hbase
      | cons d c =>
        obtain ⟨-, rfl⟩ := List.cons.inj hc
        exact ⟨c, op, a, rfl, hgiven, hbase, hnone, hb⟩
    · cases c with
      | nil =>
        obtain ⟨rfl, -⟩ := List.cons.inj hc
        cases hbase
      | cons d c =>
        -- the mode would have been given a value later on
        obtain ⟨-, rfl⟩ := List.cons.inj hc
        rw [hnone _ (List.mem_append_right _ List.mem_cons_self)] at hset
        cases hset
  · rintro ⟨b, op, a, rfl, hgiven, hbase, hnone, hb⟩
    exact ⟨before ++ .setMode name m value :: b, op, a, by simp, hgiven, hbase, hnone, hb⟩

end Operations

namespace Table

/-- **A mode that was set is there in every later table, exactly if it was not taken over since.**
Neither what came before nor other variables play a part. -/
theorem get?_modes_run_setMode (before after : List TableOp) (name mode : String) (value : Value) :
    ∃ v, (run (before ++ .setMode name mode value :: after)).get? name = some v ∧
      (v.modes.get? mode = none ↔ TakenOver mode (after.filter fun op => op.target = name)) := by
  have hmem : name ∈ (run (before ++ .setMode name mode value :: after)).names := by
    rw [names_run, List.mem_eraseDups, List.mem_flatMap]
    exact ⟨.setMode name mode value, by simp, List.mem_singleton_self name⟩
  obtain ⟨v, hv, rfl⟩ := List.mem_map.1 hmem
  refine ⟨v, get?_of_mem hv, ?_⟩
  have hf := follows_run _ v hv
  have hown : (TableOp.setMode v.name mode value :: after).filter (fun op => op.target = v.name) =
      .setMode v.name mode value :: after.filter (fun op => op.target = v.name) :=
    List.filter_cons_of_pos (decide_eq_true rfl)
  rw [List.filter_append, hown] at hf
  have hgiven : ∃ op ∈ before.filter (fun op => op.target = v.name) ++
      .setMode v.name mode value :: after.filter (fun op => op.target = v.name),
        (op.modeValue? mode).isSome = true :=
    ⟨.setMode v.name mode value, by simp, by simp [TableOp.modeValue?]⟩
  have hs := exists_stands_iff hgiven
  rw [takenOver_append_setMode] at hs
  rw [← not_iff_not, ← hs, ← ne_eq, Option.ne_none_iff_exists']
  constructor
  · rintro ⟨slot, hslot⟩
    obtain ⟨x, inline, hx, -⟩ := (hf.modes mode slot).1 hslot
    exact ⟨x, inline, hx⟩
  · rintro ⟨x, inline, hx⟩
    exact ⟨_, (hf.modes mode _).2 ⟨x, inline, hx, rfl⟩⟩

/-- **Not every mode that was set is kept.** If a base value brings a value for the mode, too, the
next base value takes the mode away. -/
theorem not_forall_modes_kept : ¬ ∀ (before after : List TableOp) (name mode : String)
    (value : Value), ∃ v, (run (before ++ .setMode name mode value :: after)).get? name = some v ∧
      (v.modes.get? mode).isSome = true := by
  intro hall
  let black : Value := .concrete (.color .zero)
  let after : List TableOp :=
    [.declareWithModes "a" black [("light", black), ("dark", black)] none, .declare "a" black none]
  obtain ⟨v, hv, hm⟩ := hall [] after "a" "dark" black
  have hlost : ((run ([] ++ .setMode "a" "dark" black :: after)).get? "a").all
      (fun v => (v.modes.get? "dark").isNone) = true := by decide +kernel
  rw [hv, Option.all_some, Option.isNone_iff_eq_none] at hlost
  rw [hlost] at hm
  cases hm

end Table

end DesignVars
