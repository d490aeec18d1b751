import DesignVars.Proofs.Report
import Mathlib.Data.Finset.Card
import Mathlib.Data.List.TakeWhile

/-!
# Tables by the last operations on each name

What a variable holds is decided by the last operations on it, wherever other operations stand
between them.

* `TableOp.target`, `TableOp.baseValue?`, `TableOp.modeValue?`: what an operation is about and what
  it gives;
* `lastGiven`, `Stands`, `firstRemark?`: the last base value and description, the value of a mode
  that neither a later one nor a later base value has replaced, and a description for a variable
  without one;
* `TableOp.change`, `Table.mem_vars_apply`: an operation changes the variable it is about;
* `Variable.Follows`, `Variable.Follows.change`: a variable that holds what operations on it left,
  and one more of them;
* **`run_determined`**: any table is determined by the operations on each of its names.
-/

namespace DesignVars

/-! ## What an operation gives -/

namespace TableOp

/-- The name of the variable that an operation is about. -/
def target : TableOp → String
  | declare name _ _ | declareWithModes name _ _ _ | setMode name _ _ | describe name _ => name

/-- The value outside of modes that an operation gives. -/
def baseValue? : TableOp → Option Value
  | declare _ value _ | declareWithModes _ value _ _ => some value
  | setMode .. | describe .. => none

/-- The value that an operation gives for a mode; the last one, if it gives several. -/
def modeValue? (m : String) : TableOp → Option Value
  | setMode _ mode value => if mode = m then some value else none
  | declareWithModes _ _ modes _ => (modes.reverse.find? fun x => x.1 = m).map Prod.snd
  | declare .. | describe .. => none

/-- The description that an operation gives along with a value outside of modes. -/
def description? : TableOp → Option String
  | declare _ _ description | declareWithModes _ _ _ description => description
  | setMode .. | describe .. => none

/-- The description that an operation gives to a variable without one. -/
def remark? : TableOp → Option String
  | describe _ description => description
  | declare .. | declareWithModes .. | setMode .. => none

/-- What an operation makes of the variable it is about. -/
def change (v : Variable) : TableOp → Variable
  | declare _ value description => v.redeclare value description
  | declareWithModes _ value modes description =>
    modes.foldl (fun v m => v.addInlineMode m.1 m.2) (v.redeclare value description)
  | setMode _ mode value => v.setMode mode value
  | describe _ description => v.describe description

theorem name_change (v : Variable) (op : TableOp) : (op.change v).name = v.name := by
  cases op with
  | declareWithModes _ value modes description => exact Variable.name_foldl_addInlineMode modes _
  | _ => rfl

theorem target_of_mem_mentions {op : TableOp} {name : String} (h : name ∈ op.mentions) :
    op.target = name := by
  cases op with
  | describe => cases h
  | _ => exact (List.mem_singleton.1 h).symm

theorem gives_nothing {op : TableOp} (h : op.mentions = []) :
    op.baseValue? = none ∧ (∀ m, op.modeValue? m = none) ∧ op.description? = none := by
  cases op with
  | describe => exact ⟨rfl, fun _ => rfl, rfl⟩
  | _ => cases h

end TableOp

/-! ## What operations leave -/

section

variable {β : Type} {ops : List TableOp} {op : TableOp} {m : String} {x : Value}

/-- The last of what operations give. -/
def lastGiven (f : TableOp → Option β) (ops : List TableOp) : Option β := ops.reverse.findSome? f

theorem lastGiven_concat (f : TableOp → Option β) :
    lastGiven f (ops ++ [op]) = (f op).or (lastGiven f ops) := by
  rw [lastGiven, List.reverse_append, List.findSome?_append, List.reverse_singleton, lastGiven]
  cases h : f op <;> simp [h]

theorem lastGiven_eq_none {f : TableOp → Option β} (h : ∀ op ∈ ops, f op = none) :
    lastGiven f ops = none :=
  List.findSome?_eq_none_iff.2 fun op hop => h op (List.mem_reverse.1 hop)

/-- The value is the last that operations gave for the mode, and it counts still: if it came along
with a base value, no other base value came after it. -/
def Stands (ops : List TableOp) (m : String) (x : Value) (inline : Bool) : Prop :=
  ∃ before op after, ops = before ++ op :: after ∧ op.modeValue? m = some x ∧
    op.baseValue?.isSome = inline ∧ (∀ op' ∈ after, op'.modeValue? m = none) ∧
    (inline = true → ∀ op' ∈ after, op'.baseValue? = none)

/-- With one more operation a value stands if it is from that one, or if it stood before and that
one gives neither a value for the mode nor, where it came along with a base value, a base value. -/
theorem stands_concat {inline : Bool} : Stands (ops ++ [op]) m x inline ↔
    op.modeValue? m = some x ∧ op.baseValue?.isSome = inline ∨
      op.modeValue? m = none ∧ Stands ops m x inline ∧ (inline = true → op.baseValue? = none) := by
  constructor
  · rintro ⟨before, op₁, after, he, hx, hi, hm, hb⟩
    rcases List.eq_nil_or_concat after with rfl | ⟨after, last, rfl⟩
    · obtain ⟨rfl, h⟩ := List.append_inj' he rfl
      obtain rfl := List.singleton_inj.1 h
      exact .inl ⟨hx, hi⟩
    · rw [List.concat_eq_append] at he hm hb
      rw [← List.cons_append, ← List.append_assoc] at he
      obtain ⟨rfl, h⟩ := List.append_inj' he rfl
      obtain rfl := List.singleton_inj.1 h
      refine .inr ⟨hm _ (List.mem_append_right _ List.mem_cons_self),
        ⟨before, op₁, after, rfl, hx, hi, ?_, ?_⟩, ?_⟩
      · exact fun op' h => hm op' (List.mem_append_left _ h)
      · exact fun ht op' h => hb ht op' (List.mem_append_left _ h)
      · exact fun ht => hb ht _ (List.mem_append_right _ List.mem_cons_self)
  · rintro (⟨hx, hi⟩ | ⟨hno, ⟨before, op₁, after, rfl, hx, hi, hm, hb⟩, hbase⟩)
    · exact ⟨ops, op, [], rfl, hx, hi, nofun, fun _ => nofun⟩
    · refine ⟨before, op₁, after ++ [op], by rw [List.append_assoc, List.cons_append], hx, hi,
        ?_, fun ht => ?_⟩
      · exact List.forall_mem_append.2 ⟨hm, List.forall_mem_singleton.2 hno⟩
      · exact List.forall_mem_append.2 ⟨hb ht, List.forall_mem_singleton.2 (hbase ht)⟩

theorem not_stands_nil {inline : Bool} : ¬ Stands [] m x inline := by
  rintro ⟨before, op, after, he, -⟩
  cases before <;> cases he

theorem Stands.unique {inline : Bool} (h : Stands ops m x inline) {y : Value} {inline' : Bool}
    (h' : Stands ops m y inline') : x = y ∧ inline = inline' := by
  induction ops using List.reverseRecOn with
  | nil => exact absurd h not_stands_nil
  | append_singleton ops op ih =>
    rcases stands_concat.1 h with ⟨hx, hi⟩ | ⟨hno, h, -⟩ <;>
      rcases stands_concat.1 h' with ⟨hy, hi'⟩ | ⟨hno', h', -⟩
    · exact ⟨Option.some.inj (hx.symm.trans hy), hi.symm.trans hi'⟩
    · cases hx.symm.trans hno'
    · cases hy.symm.trans hno
    · exact ih h h'

theorem not_stands {inline : Bool} (h : ∀ op ∈ ops, op.modeValue? m = none) :
    ¬ Stands ops m x inline := by
  rintro ⟨before, op, after, rfl, hx, -⟩
  rw [h op (List.mem_append_right _ List.mem_cons_self)] at hx
  cases hx

/-- The first description that operations give to a variable without one, once it is there. -/
def firstRemark? (ops : List TableOp) : Option String :=
  (ops.dropWhile fun op => op.mentions = []).findSome? TableOp.remark?

theorem firstRemark?_concat (h : op.remark? = none) :
    firstRemark? (ops ++ [op]) = firstRemark? ops := by
  unfold firstRemark?
  rw [List.dropWhile_append]
  split_ifs with he
  · rw [List.isEmpty_iff.1 he, List.dropWhile_cons]
    split_ifs <;> simp [h]
  · simp [List.findSome?_append, h]

theorem firstRemark?_eq_none (h : ∀ op ∈ ops, op.remark? = none) : firstRemark? ops = none :=
  List.findSome?_eq_none_iff.2 fun op hop => h op ((List.dropWhile_suffix _).subset hop)

theorem firstRemark?_concat_describe (h : ∃ op ∈ ops, op.mentions ≠ []) {name : String}
    {description : Option String} : firstRemark? (ops ++ [.describe name description]) =
      (firstRemark? ops).or description := by
  unfold firstRemark?
  rw [List.dropWhile_append, if_neg, List.findSome?_append]
  · cases description <;> simp [TableOp.remark?]
  · rw [List.isEmpty_iff, List.dropWhile_eq_nil_iff]
    obtain ⟨op, hop, hm⟩ := h
    exact fun hall => hm (of_decide_eq_true (hall op hop))

end

/-! ## Variables -/

/-- The variable holds what operations on it left. -/
structure Variable.Follows (ops : List TableOp) (v : Variable) : Prop where
  declared : v.declared = true ↔ ∃ op ∈ ops, op.baseValue?.isSome = true
  base : v.base =
    { value := (lastGiven TableOp.baseValue? ops).getD (.concrete (.color .zero)) }
  modes : ∀ m s, v.modes.get? m = some s ↔ ∃ x inline, Stands ops m x inline ∧ s = { value := x }
  /-- The modes that came along with the base value. -/
  inline : ∀ m, m ∈ v.inlineModes ↔ ∃ x, Stands ops m x true
  /-- The last description that came along with a base value, or else the first one that was given
  on its own. -/
  description : v.description = (lastGiven TableOp.description? ops).or (firstRemark? ops)

namespace Variable

theorem follows_ofMode (name : String) {ops : List TableOp} (h : ∀ op ∈ ops, op.mentions = []) :
    (ofMode name).Follows ops := by
  have hgives := fun op hop => TableOp.gives_nothing (h op hop)
  have hstands : ∀ m x inline, ¬ Stands ops m x inline := fun m x inline =>
    not_stands fun op hop => (hgives op hop).2.1 m
  constructor
  · refine iff_of_false nofun ?_
    rintro ⟨op, hop, hb⟩
    rw [(hgives op hop).1] at hb
    cases hb
  · rw [lastGiven_eq_none fun op hop => (hgives op hop).1]
    rfl
  · exact fun m s => iff_of_false nofun fun ⟨x, inline, hx, _⟩ => hstands m x inline hx
  · exact fun m => iff_of_false List.not_mem_nil fun ⟨x, hx⟩ => hstands m x true hx
  · have hdrop : ops.dropWhile (fun op => op.mentions = []) = [] :=
      List.dropWhile_eq_nil_iff.2 fun op hop => decide_eq_true (h op hop)
    rw [lastGiven_eq_none fun op hop => (hgives op hop).2.2, firstRemark?, hdrop]
    rfl

/-! ### Modes that come along with a base value -/

section AddInlineModes

variable (modes : List (String × Value)) (v : Variable)

/-- The variable with modes that come along with its base value. -/
def addInlineModes : Variable := modes.foldl (fun v m => v.addInlineMode m.1 m.2) v

theorem addInlineModes_eq : v.addInlineModes modes =
    { v with
      modes := modes.foldl (fun slots m => slots.insert m.1 { value := m.2 }) v.modes
      inlineModes := (modes.map Prod.fst).reverse ++ v.inlineModes } := by
  induction modes generalizing v with
  | nil => rfl
  | cons m modes ih =>
    change (v.addInlineMode m.1 m.2).addInlineModes modes = _
    rw [ih]
    simp [addInlineMode]

theorem get?_modes_addInlineModes (m : String) : (v.addInlineModes modes).modes.get? m =
    ((modes.reverse.find? fun x => x.1 = m).map fun x => { value := x.2 }).or (v.modes.get? m) := by
  rw [addInlineModes_eq]
  generalize v.modes = slots
  induction modes generalizing slots with
  | nil => rfl
  | cons x modes ih =>
    rw [List.foldl_cons, ih, SortedMap.get?_insert, List.reverse_cons, List.find?_append]
    by_cases h : x.1 = m <;> simp [h]

theorem mem_inlineModes_addInlineModes {m : String} : m ∈ (v.addInlineModes modes).inlineModes ↔
    (modes.reverse.find? fun x => x.1 = m).isSome = true ∨ m ∈ v.inlineModes := by
  rw [addInlineModes_eq]
  simp

end AddInlineModes

/-! ### One more operation -/

section Change

variable {v : Variable} {ops : List TableOp} (h : v.Follows ops)

include h

/-- What stands without a base value that it came along with is what a new base value leaves. -/
theorem Follows.get?_modes_redeclare (value : Value) (description : Option String) (m : String)
    (s : Slot) : (v.redeclare value description).modes.get? m = some s ↔
      ∃ x, Stands ops m x false ∧ s = { value := x } := by
  change (v.inlineModes.foldl SortedMap.erase v.modes).get? m = some s ↔ _
  rw [SortedMap.get?_foldl_erase]
  constructor
  · intro hs
    split_ifs at hs with hm
    obtain ⟨x, inline, hx, rfl⟩ := (h.modes m s).1 hs
    cases inline with
    | false => exact ⟨x, hx, rfl⟩
    | true => exact absurd ((h.inline m).2 ⟨x, hx⟩) hm
  · rintro ⟨x, hx, rfl⟩
    have hm : m ∉ v.inlineModes := by
      intro hm
      obtain ⟨y, hy⟩ := (h.inline m).1 hm
      cases (hx.unique hy).2
    rw [if_neg hm]
    exact (h.modes m _).2 ⟨x, false, hx, rfl⟩

theorem Follows.redeclare {op : TableOp} {value : Value} (modes : List (String × Value))
    (hb : op.baseValue? = some value)
    (hm : ∀ m, op.modeValue? m = (modes.reverse.find? fun x => x.1 = m).map Prod.snd)
    (hr : op.remark? = none) :
    ((v.redeclare value op.description?).addInlineModes modes).Follows (ops ++ [op]) := by
  constructor
  · rw [addInlineModes_eq]
    exact iff_of_true rfl ⟨op, List.mem_append_right _ List.mem_cons_self, hb ▸ rfl⟩
  · rw [addInlineModes_eq, lastGiven_concat, hb]
    rfl
  · intro m s
    simp only [get?_modes_addInlineModes, stands_concat, hm, hb]
    cases modes.reverse.find? fun x => x.1 = m with
    | some y => simp [eq_comm]
    | none =>
      simp only [Option.map_none, Option.none_or, h.get?_modes_redeclare]
      simp
  · intro m
    simp only [mem_inlineModes_addInlineModes, stands_concat, hm, hb]
    cases modes.reverse.find? fun x => x.1 = m <;> simp [Variable.redeclare]
  · rw [addInlineModes_eq, lastGiven_concat, firstRemark?_concat hr, Option.or_assoc,
      ← h.description]
    rfl

theorem Follows.setMode (name mode : String) (value : Value) :
    (v.setMode mode value).Follows (ops ++ [.setMode name mode value]) := by
  constructor
  · simp [Variable.setMode, h.declared, TableOp.baseValue?]
  · rw [lastGiven_concat]
    exact h.base
  · intro m s
    simp only [Variable.setMode, SortedMap.get?_insert, stands_concat, TableOp.modeValue?,
      TableOp.baseValue?]
    by_cases hm : mode = m
    · simp [hm, eq_comm]
    · simp [hm, h.modes]
  · intro m
    simp only [Variable.setMode, List.mem_filter, h.inline, stands_concat, TableOp.modeValue?,
      TableOp.baseValue?]
    by_cases hm : mode = m
    · simp [hm]
    · simp [hm, Ne.symm hm]
  · rw [lastGiven_concat, firstRemark?_concat rfl]
    exact h.description

theorem Follows.describe (name : String) (description : Option String)
    (hops : ∃ op ∈ ops, op.mentions ≠ []) :
    (v.describe description).Follows (ops ++ [.describe name description]) := by
  constructor
  · simp [Variable.describe, h.declared, TableOp.baseValue?]
  · rw [lastGiven_concat]
    exact h.base
  · intro m s
    simp [Variable.describe, stands_concat, TableOp.modeValue?, TableOp.baseValue?, h.modes]
  · intro m
    simp [Variable.describe, stands_concat, TableOp.modeValue?, TableOp.baseValue?, h.inline]
  · rw [lastGiven_concat, firstRemark?_concat_describe hops, ← Option.or_assoc]
    exact congrArg (Option.or · description) h.description

/-- **One more operation on a variable leaves what the last of all operations on it gave.** -/
theorem Follows.change {op : TableOp} (hops : op.mentions = [] → ∃ op' ∈ ops, op'.mentions ≠ []) :
    (op.change v).Follows (ops ++ [op]) := by
  cases op with
  | declare name value description => exact h.redeclare [] rfl (fun _ => rfl) rfl
  | declareWithModes name value modes description => exact h.redeclare modes rfl (fun _ => rfl) rfl
  | setMode name mode value => exact h.setMode name mode value
  | describe name description => exact h.describe name description (hops rfl)

end Change

end Variable

/-! ## Tables -/

namespace Table

/-- **An operation changes the variable it is about, or makes it, and leaves the others.** -/
theorem mem_vars_apply {t : Table} {v : Variable} {op : TableOp} (hv : v ∈ (op.apply t).vars) :
    v ∈ t.vars ∧ v.name ≠ op.target ∨ (∃ u ∈ t.vars, u.name = op.target ∧ v = op.change u) ∨
      op.target ∉ t.names ∧ op.mentions ≠ [] ∧ v = op.change (.ofMode op.target) := by
  have hnew : ∀ name value description, Variable.ofValue name value description =
      (Variable.ofMode name).redeclare value description := by
    rintro name value (_ | _) <;> rfl
  cases op with
  | declare name value description =>
    rcases mem_vars_upsert (Variable.name_ofValue name value description) hv with h | h | ⟨hn, rfl⟩
    · exact .inl h
    · exact .inr (.inl h)
    · exact .inr (.inr ⟨hn, List.cons_ne_nil _ _, hnew name value description⟩)
  | declareWithModes name value modes description =>
    rcases mem_vars_modify hv with ⟨h, hne⟩ | ⟨w, h, hw, rfl⟩
    · have h := mem_vars_upsert (Variable.name_ofValue name value description) h
      rcases h with h | ⟨u, hu, hn, rfl⟩ | ⟨hn, rfl⟩
      · exact .inl h
      · exact absurd hn hne
      · exact absurd rfl hne
    · have h := mem_vars_upsert (Variable.name_ofValue name value description) h
      rcases h with ⟨-, hne⟩ | ⟨u, hu, hn, rfl⟩ | ⟨hn, rfl⟩
      · exact absurd hw hne
      · exact .inr (.inl ⟨u, hu, hn, rfl⟩)
      · rw [hnew]
        exact .inr (.inr ⟨hn, List.cons_ne_nil _ _, rfl⟩)
  | setMode name mode value =>
    rcases mem_vars_upsert (Variable.name_setMode_ofMode name mode value) hv with h | h | ⟨hn, rfl⟩
    · exact .inl h
    · exact .inr (.inl h)
    · exact .inr (.inr ⟨hn, List.cons_ne_nil _ _, rfl⟩)
  | describe name description => exact (mem_vars_modify hv).imp_right .inl

section Run

theorem run_concat (ops : List TableOp) (op : TableOp) :
    run (ops ++ [op]) = op.apply (run ops) := by
  rw [run, List.foldl_append, List.foldl_cons, List.foldl_nil, run]

theorem names_run (ops : List TableOp) :
    (run ops).names = (ops.flatMap TableOp.mentions).eraseDups := by
  induction ops using List.reverseRecOn with
  | nil => rfl
  | append_singleton ops op ih =>
    rw [run_concat, names_apply, ih, List.flatMap_append, List.flatMap_singleton]
    cases op with
    | describe => simp [TableOp.mentions]
    | _ => exact (eraseDups_concat _ _).symm

theorem exists_mentions_of_mem_names {ops : List TableOp} {name : String}
    (h : name ∈ (run ops).names) :
    ∃ op ∈ ops.filter fun op => op.target = name, op.mentions ≠ [] := by
  rw [names_run, List.mem_eraseDups, List.mem_flatMap] at h
  obtain ⟨op, hop, hm⟩ := h
  refine ⟨op, List.mem_filter.2 ⟨hop, ?_⟩, List.ne_nil_of_mem hm⟩
  exact decide_eq_true (TableOp.target_of_mem_mentions hm)

theorem mentions_eq_nil_of_notMem_names {ops : List TableOp} {name : String}
    (h : name ∉ (run ops).names) : ∀ op ∈ ops.filter fun op => op.target = name,
      op.mentions = [] := by
  intro op hop
  obtain ⟨hmem, ht⟩ := List.mem_filter.1 hop
  rw [names_run, List.mem_eraseDups, List.mem_flatMap, not_exists] at h
  rw [← of_decide_eq_true ht] at h
  cases op with
  | describe => rfl
  | _ => exact absurd ⟨hmem, List.mem_cons_self⟩ (h _)

theorem follows_run (ops : List TableOp) : ∀ v ∈ (run ops).vars,
    v.Follows (ops.filter fun op => op.target = v.name) := by
  induction ops using List.reverseRecOn with
  | nil => exact nofun
  | append_singleton ops op ih =>
    intro v hv
    rw [run_concat] at hv
    rw [List.filter_append, List.filter_singleton]
    rcases mem_vars_apply hv with ⟨hv, hne⟩ | ⟨u, hu, hn, rfl⟩ | ⟨hn, hm, rfl⟩
    · rw [decide_eq_false (Ne.symm hne), cond_false, List.append_nil]
      exact ih v hv
    · rw [op.name_change, decide_eq_true hn.symm, cond_true]
      exact (ih u hu).change fun _ => exists_mentions_of_mem_names (List.mem_map_of_mem hu)
    · have ht : decide (op.target = (op.change (.ofMode op.target)).name) = true :=
        decide_eq_true (op.name_change (.ofMode op.target)).symm
      rw [ht, cond_true, op.name_change]
      exact (Variable.follows_ofMode op.target (mentions_eq_nil_of_notMem_names hn)).change
        fun h => absurd h hm

/-- The table has a variable for each name that operations mention, which holds what those on it
left. -/
structure Determined (ops : List TableOp) (t : Table) : Prop where
  distinct : t.Distinct
  /-- Names come in the order of their first mention. -/
  names : t.names = (ops.flatMap TableOp.mentions).eraseDups
  size : t.size = (ops.flatMap TableOp.mentions).toFinset.card
  /-- The index holds the place of each name in that order, and nothing else. -/
  index : ∀ name i, t.index.get? name = some i ↔
    (ops.flatMap TableOp.mentions).eraseDups[i]? = some name
  get? : ∀ name v, t.get? name = some v ↔ v ∈ t.vars ∧ v.name = name
  follows : ∀ v ∈ t.vars, v.Follows (ops.filter fun op => op.target = v.name)
  /-- If none is given on its own, a description is the last that came along with a base value. -/
  described : (∀ op ∈ ops, op.remark? = none) → ∀ v ∈ t.vars, v.description =
    lastGiven TableOp.description? (ops.filter fun op => op.target = v.name)

/-- **A table is determined by the operations on each of its names.** -/
theorem run_determined (ops : List TableOp) : (run ops).Determined ops := by
  have hnames := names_run ops
  refine ⟨(run ops).distinct, hnames, ?_, fun name i => ?_, fun _ _ => get?_eq_some_iff,
    follows_run ops, fun hops v hv => ?_⟩
  · have hlen : (run ops).names.length = (run ops).size := List.length_map _
    rw [← hlen, ← List.toFinset_card_of_nodup (run ops).distinct, hnames]
    congr 1
    ext name
    simp only [List.mem_toFinset, List.mem_eraseDups]
  · rw [index_eq_some_iff, hnames]
  · rw [(follows_run ops v hv).description, firstRemark?_eq_none, Option.or_none]
    exact fun op hop => hops op (List.mem_of_mem_filter hop)

end Run

end Table

end DesignVars
