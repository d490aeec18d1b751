import DesignVars.Proofs.Color.Evaluation
import DesignVars.Proofs.Report

/-!
# Declarations shadow the snapshot

* `Table.ask?`: the name under which the snapshot is asked, if looking a name up ends there;
* `colorNames`, `Declaration.names`: the names that a color, and a declaration, looks up;
* `asked`, **`passOver_congr`**: a pass depends on the snapshot by the names that it is asked for;
* **`resolve_congr_of_targets`**: settling aliases depends on it by the targets that are not in the
  table;
* **`readStylesheet_congr`**: so a report does not depend on what the snapshot holds for a variable
  that the stylesheet declares before any of its colors needs it.
-/

namespace DesignVars

/-! ## Looking up -/

/-- The name for which the snapshot is asked when a name is looked up along at most `hops` aliases,
if the table does not have the value itself. -/
def Table.ask? (t : Table) : Nat → String → Option String
  | 0, _ => none
  | hops + 1, name =>
    match t.declared? name with
    | some v =>
      match v.base.value with
      | .concrete _ => none
      | .alias target => t.ask? hops target
    | none => some name

section Lookup

variable {s₁ s₂ : Snapshot}

theorem Table.follow_congr {t : Table} {hops : Nat} {name : String}
    (h : ∀ n, t.ask? hops name = some n → s₁.get? n = s₂.get? n) :
    t.follow s₁ hops name = t.follow s₂ hops name := by
  induction hops generalizing name with
  | zero => rfl
  | succ hops ih =>
    unfold ask? at h
    unfold follow
    cases hd : t.declared? name with
    | none =>
      rw [hd] at h
      exact h name rfl
    | some v =>
      rw [hd] at h
      rcases hv : v.base.value with c | target
      · simp only [hv]
      · simp only [hv] at h ⊢
        exact ih h

end Lookup

/-! ## Names in values -/

/-- The names that the text of a color refers to in an expression. An alias is none: it waits for
its target instead. -/
def colorNames (text : String) : List String := (Expression.parse? text).elim [] Expression.names

/-- The names that a value at the top level looks up. -/
def valueNames (text : String) : List String :=
  match lightDark? (Text.trimmed text) with
  | some (light, dark) => colorNames light ++ colorNames dark
  | none => colorNames (Text.trimmed text)

/-- The names that a declaration looks up. Values in mode blocks look up nothing. -/
def Declaration.names (d : Declaration) : List String :=
  match d.placement with
  | .topLevel => valueNames d.value
  | .mode _ | .malformed => []

section Evaluation

variable {l₁ l₂ : Lookup}

theorem classifyColor_congr {text : String} (h : ∀ n ∈ colorNames text, l₁ n = l₂ n) :
    classifyColor l₁ text = classifyColor l₂ text := by
  unfold classifyColor
  cases aliasOf? text with
  | some target => rfl
  | none =>
    unfold colorNames at h
    cases he : Expression.parse? text with
    | none => rfl
    | some e =>
      rw [he] at h
      simp only [Expression.evaluate?_congr h]

theorem classify_congr {text : String} (h : ∀ n ∈ valueNames text, l₁ n = l₂ n) :
    classify l₁ text = classify l₂ text := by
  unfold valueNames at h
  unfold classify
  cases hld : lightDark? (Text.trimmed text) with
  | none =>
    rw [hld] at h
    simp only [hld, classifyColor_congr h]
  | some args =>
    obtain ⟨light, dark⟩ := args
    rw [hld] at h
    have hl : classifyColor l₁ light = classifyColor l₂ light :=
      classifyColor_congr fun n hn => h n (List.mem_append_left _ hn)
    have hd : classifyColor l₁ dark = classifyColor l₂ dark :=
      classifyColor_congr fun n hn => h n (List.mem_append_right _ hn)
    simp only [hld, hl, hd]

theorem Declaration.read_congr {d : Declaration} (h : ∀ n ∈ d.names, l₁ n = l₂ n) :
    d.read l₁ = d.read l₂ := by
  unfold names at h
  unfold read
  cases hp : d.placement with
  | malformed | mode => rfl
  | topLevel =>
    rw [hp] at h
    simp only [classify_congr h]

end Evaluation

/-! ## A pass -/

/-- The names that a declaration asks the snapshot for, given the table before it. -/
def Declaration.asks (t : Table) (d : Declaration) : List String :=
  d.names.filterMap (t.ask? (t.size + 1))

/-- The names that the declarations ask the snapshot for, each given those before it. -/
def asked (snapshot : Snapshot) (ds : List Declaration) : List String :=
  (ds.mapIdx fun i d => d.asks (passOver snapshot (ds.take i)).table).flatten

theorem asked_concat (snapshot : Snapshot) (ds : List Declaration) (d : Declaration) :
    asked snapshot (ds ++ [d]) = asked snapshot ds ++ d.asks (passOver snapshot ds).table := by
  have h : (ds.mapIdx fun i e => e.asks (passOver snapshot ((ds ++ [d]).take i)).table) =
      ds.mapIdx fun i e => e.asks (passOver snapshot (ds.take i)).table := by
    rw [List.mapIdx_eq_mapIdx_iff]
    intro i hi
    rw [List.take_append_of_le_length (Nat.le_of_lt hi)]
  rw [asked, List.mapIdx_concat, h, List.take_left, List.flatten_concat]
  rfl

section Snapshots

variable {s₁ s₂ : Snapshot}

theorem Table.lookup_congr {t : Table} {d : Declaration}
    (h : ∀ n ∈ d.asks t, s₁.get? n = s₂.get? n) :
    ∀ n ∈ d.names, t.lookup s₁ n = t.lookup s₂ n := by
  intro n hn
  refine follow_congr fun m hm => h m ?_
  exact List.mem_filterMap.2 ⟨n, hn, hm⟩

/-- **A pass depends on the snapshot by the names that it is asked for.** -/
theorem passOver_congr {ds : List Declaration} (h : ∀ n ∈ asked s₁ ds, s₁.get? n = s₂.get? n) :
    passOver s₁ ds = passOver s₂ ds := by
  induction ds using List.reverseRecOn with
  | nil => rw [passOver, passOver, List.foldl_nil, List.foldl_nil]
  | append_singleton ds d ih =>
    rw [asked_concat] at h
    rw [passOver_concat, passOver_concat, ← ih fun n hn => h n (List.mem_append_left _ hn)]
    have hr := Declaration.read_congr
      (Table.lookup_congr fun n hn => h n (List.mem_append_right (asked s₁ ds) hn))
    unfold Pass.step
    rw [hr]

/-! ## Settling aliases -/

theorem Table.names_settle (t : Table) (a : Alias) (c : Concrete) :
    (t.settle a c).names = t.names :=
  names_eq_of_outline_eq (outline_settle t a c)

theorem Table.targetValue?_congr {t : Table} {a : Alias}
    (h : a.target ∉ t.names → s₁.get? a.target = s₂.get? a.target) :
    t.targetValue? s₁ a = t.targetValue? s₂ a := by
  unfold targetValue?
  cases hg : t.get? a.target with
  | some v => rfl
  | none => exact h (get?_eq_none_iff.1 hg)

theorem round_congr {t : Table} {as : List Alias}
    (h : ∀ a ∈ as, a.target ∉ t.names → s₁.get? a.target = s₂.get? a.target) :
    round s₁ t as = round s₂ t as := by
  induction as generalizing t with
  | nil => rfl
  | cons a as ih =>
    obtain ⟨ha, h⟩ := List.forall_mem_cons.1 h
    unfold round
    rw [← Table.targetValue?_congr ha]
    cases t.targetValue? s₁ a with
    | none => simp only [ih h]
    | some c =>
      rw [← Table.names_settle t a c] at h
      exact ih h

theorem names_round (snapshot : Snapshot) (t : Table) (as : List Alias) :
    (round snapshot t as).1.names = t.names := by
  induction as generalizing t with
  | nil => rfl
  | cons a as ih =>
    unfold round
    cases t.targetValue? snapshot a with
    | none => exact ih t
    | some c => exact (ih _).trans (Table.names_settle t a c)

theorem round_sublist (snapshot : Snapshot) (t : Table) (as : List Alias) :
    (round snapshot t as).2.Sublist as := by
  induction as generalizing t with
  | nil => exact List.Sublist.refl _
  | cons a as ih =>
    unfold round
    cases t.targetValue? snapshot a with
    | none => exact (ih t).cons_cons a
    | some c => exact (ih _).cons a

theorem rounds_congr {n : Nat} {t : Table} {as : List Alias}
    (h : ∀ a ∈ as, a.target ∉ t.names → s₁.get? a.target = s₂.get? a.target) :
    rounds s₁ n t as = rounds s₂ n t as := by
  induction n generalizing t as with
  | zero => rfl
  | succ n ih =>
    have hn := names_round s₁ t as
    have hr : rounds s₁ n (round s₁ t as).1 (round s₁ t as).2 =
        rounds s₂ n (round s₁ t as).1 (round s₁ t as).2 :=
      ih fun a ha => hn ▸ h a ((round_sublist s₁ t as).subset ha)
    unfold rounds
    rw [← round_congr h]
    simp only [hr]

/-- **Settling aliases depends on the snapshot by those targets that are not in the table.** -/
theorem resolve_congr_of_targets {t : Table}
    (h : ∀ a ∈ t.aliases, a.target ∉ t.names → s₁.get? a.target = s₂.get? a.target) :
    resolve t s₁ = resolve t s₂ := rounds_congr h

theorem resolve_congr {t : Table} (h : ∀ n ∉ t.names, s₁.get? n = s₂.get? n) :
    resolve t s₁ = resolve t s₂ := resolve_congr_of_targets fun a _ => h a.target

end Snapshots

/-! ## Reports -/

/-- The report has a variable of that name with a base value of its own. -/
def Report.Declares (r : Report) (name : String) : Prop :=
  ∃ v ∈ r.vars, v.name = name ∧ v.declared = true

instance (r : Report) (name : String) : Decidable (r.Declares name) :=
  inferInstanceAs (Decidable (∃ v ∈ r.vars, v.name = name ∧ v.declared = true))

theorem Report.Declares.mem_names {css : String} {snapshot : Snapshot} {name : String}
    (h : (readStylesheet css snapshot).Declares name) :
    name ∈ (passOver snapshot (scan css)).table.names := by
  obtain ⟨v, hv, rfl, -⟩ := h
  rw [← Table.names_eq_of_outline_eq (readStylesheet_exact css snapshot).outline]
  exact List.mem_map_of_mem hv

/-- **Declarations shadow the snapshot.** Two snapshots give the same report if they differ only in
names that the stylesheet declares and that no declaration asks the snapshot for. -/
theorem readStylesheet_congr (css : String) (s₁ s₂ : Snapshot)
    (h : ∀ n, s₁.get? n ≠ s₂.get? n →
      (readStylesheet css s₁).Declares n ∧ n ∉ asked s₁ (scan css)) :
    readStylesheet css s₁ = readStylesheet css s₂ := by
  have hp : passOver s₁ (scan css) = passOver s₂ (scan css) := by
    refine passOver_congr fun n hn => ?_
    by_contra hne
    exact (h n hne).2 hn
  have hr : resolve (passOver s₁ (scan css)).table s₁ =
      resolve (passOver s₁ (scan css)).table s₂ := by
    refine resolve_congr fun n hn => ?_
    by_contra hne
    exact hn (h n hne).1.mem_names
  unfold readStylesheet
  simp only [← hp, hr]

/-! ## The order of declarations -/

theorem Snapshot.eq_of_get?_insert_ne {s : Snapshot} {c : Concrete} {m n : String}
    (h : (s.insert m (.concrete c)).get? n ≠ s.get? n) : n = m := by
  by_contra hne
  exact h ((SortedMap.get?_insert _ _ _ _).trans (if_neg (Ne.symm hne)))

def storedHue : Snapshot := Snapshot.empty.insert "n" (.concrete (.number 0.0))

/-- A number, and a color that a stylesheet may declare as well. -/
def storedBase : Snapshot := storedHue.insert "b" (.concrete (.color .zero))

theorem readStylesheet_congr_base_first :
    let css := "--b: #000; --a: oklch(from var(--b) var(--n) var(--n) var(--n));"
    storedBase.get? "b" ≠ storedHue.get? "b" ∧
      (∀ n, storedBase.get? n ≠ storedHue.get? n →
        (readStylesheet css storedBase).Declares n ∧ n ∉ asked storedBase (scan css)) ∧
      readStylesheet css storedBase = readStylesheet css storedHue := by
  intro css
  have h : ∀ n, storedBase.get? n ≠ storedHue.get? n →
      (readStylesheet css storedBase).Declares n ∧ n ∉ asked storedBase (scan css) := by
    intro n hn
    rw [Snapshot.eq_of_get?_insert_ne hn]
    decide +kernel
  exact ⟨nofun, h, readStylesheet_congr css storedBase storedHue h⟩

/-- A color that stands before the declaration of its base takes the base from the snapshot, so for
such names the order of the declarations counts. -/
theorem base_last_reads_snapshot : ¬ ∀ (css : String) (s₁ s₂ : Snapshot),
    (∀ n, s₁.get? n ≠ s₂.get? n →
      (readStylesheet css s₁).Declares n ∧ (readStylesheet css s₂).Declares n) →
    readStylesheet css s₁ = readStylesheet css s₂ := by
  intro hall
  let css := "--a: oklch(from var(--b) var(--n) var(--n) var(--n)); --b: #000;"
  have h := hall css storedBase storedHue fun n hn => by
    rw [Snapshot.eq_of_get?_insert_ne hn]
    decide +kernel
  have hs : (readStylesheet css storedBase).skipped ≠ (readStylesheet css storedHue).skipped := by
    decide +kernel
  exact hs (congrArg Report.skipped h)

end DesignVars
