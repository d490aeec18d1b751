import DesignVars.Proofs.Placement
import DesignVars.Proofs.Store

/-!
# Where the values of a store come from

A store grows by imports. What an import puts in a store is a number, a color that was brought into
the displayable range, the color that stands for no value, or a value that the store held before.

* `Variable.All`, `Table.All`, `Snapshot.All`, `Stored.All`: all values have a property;
* `Value.FromText`, `passOver_fromText`: the values that the declarations of a stylesheet can set,
  in modes that are not blank (`isAllBlank_of_mem_vars`);
* `readStylesheet_all`, `Store.All.existing`, `Store.All.runImport`: what one
  operation, a stylesheet, a snapshot of a store, and an import preserve;
* **`Store.Reachable.all`**: what holds of every number and of every displayable color holds of all
  values of a reachable store.
-/

namespace DesignVars

/-- The numbers that a value is made of. -/
def Value.numbers : Value → List Float
  | .concrete (.number x) => [x]
  | .concrete (.color _) | .alias _ => []

/-- The base value and the values of the modes. -/
def Stored.values (s : Stored) : List Value := s.value :: s.modes.values

/-- All values of all variables. -/
def Store.values (s : Store) : List Value :=
  (s.collections.values.flatMap Collection.vars).flatMap Stored.values

/-- A property of the values that a stylesheet can write. -/
structure Written (P : Concrete → Prop) : Prop where
  number : ∀ x, P (.number x)
  clamp : ∀ c : Rgba, P (.color c.clamp)
  zero : P (.color .zero)

section Properties

variable (P : Concrete → Prop) (Q : Option String → Value → Prop)

def Value.All (v : Value) : Prop := ∀ c, v = .concrete c → P c

def Variable.All (v : Variable) : Prop := ∀ mode s, v.slot? mode = some s → Q mode s.value

def Table.All (t : Table) : Prop := ∀ v ∈ t.vars, v.All Q

def Snapshot.All (s : Snapshot) : Prop := ∀ n c, s.get? n = some c → P c

def Stored.All (s : Stored) : Prop := ∀ v ∈ s.values, v.All P

end Properties

/-! ## Reading values -/

/-- The values that the declarations of a stylesheet can set: aliases of valid names, numbers,
displayable colors, and the color that stands for no value. -/
inductive Value.FromText : Value → Prop
  | alias {target : String} (h : isValidName target = true) : FromText (.alias target)
  | number (x : Float) : FromText (.concrete (.number x))
  | color (c : Rgba) : FromText (.concrete (.color c.clamp))
  | zero : FromText (.concrete (.color .zero))

theorem Value.FromText.validTarget {target : String} (h : (Value.alias target).FromText) :
    isValidName target = true := by
  rcases h with ⟨hn⟩ | _
  exact hn

theorem isValidName_of_aliasOf? {text target : String} (h : aliasOf? text = some target) :
    isValidName target = true := by
  obtain ⟨rest, -, h⟩ := Option.bind_eq_some_iff.1 h
  simp only at h
  split_ifs at h with hc
  cases h
  exact (Bool.and_eq_true_iff.1 hc).2

section Reading

variable {lookup : Lookup} {text : String}

theorem colorLiteral?_fromText {v : Value} (h : colorLiteral? text = some v) : v.FromText := by
  obtain ⟨c, -, rfl⟩ := Option.map_eq_some_iff.1 h
  exact .color c

theorem classifyColor_fromText {v : Value} (h : classifyColor lookup text = some v) :
    v.FromText := by
  unfold classifyColor at h
  split at h
  · rename_i target ht
    cases h
    exact .alias (isValidName_of_aliasOf? ht)
  · split at h
    · obtain ⟨c, hc, rfl⟩ := Option.map_eq_some_iff.1 h
      obtain ⟨x, -, rfl⟩ := Option.map_eq_some_iff.1 hc
      exact .color _
    · exact colorLiteral?_fromText h

theorem classify_fromText {c : Classified} (h : classify lookup text = some c) :
    (∀ v, c = .single v → v.FromText) ∧ ∀ l d, c = .dual l d → l.FromText ∧ d.FromText := by
  unfold classify at h
  simp only at h
  split at h
  · rename_i target ht
    cases h
    exact ⟨by rintro _ ⟨⟩; exact .alias (isValidName_of_aliasOf? ht), nofun⟩
  split at h
  · cases h
    exact ⟨by rintro _ ⟨⟩; exact .number _, nofun⟩
  split at h
  · cases h
    exact ⟨by rintro _ ⟨⟩; exact .number _, nofun⟩
  split at h
  · simp only [Option.bind_eq_bind, Option.bind_eq_some_iff, Option.some.injEq] at h
    obtain ⟨l, hl, d, hd, rfl⟩ := h
    refine ⟨nofun, ?_⟩
    rintro _ _ ⟨⟩
    exact ⟨classifyColor_fromText hl, classifyColor_fromText hd⟩
  · obtain ⟨v, hv, rfl⟩ := Option.map_eq_some_iff.1 h
    refine ⟨?_, nofun⟩
    rintro _ ⟨⟩
    exact classifyColor_fromText hv

theorem classifyMode_fromText {v : Value} (h : classifyMode text = some v) : v.FromText := by
  unfold classifyMode at h
  simp only at h
  split at h
  · rename_i target ht
    cases h
    exact .alias (isValidName_of_aliasOf? ht)
  · exact colorLiteral?_fromText h

/-- What the declarations of a stylesheet can put in a slot: the value is one of theirs, and the
mode is not blank. -/
def SlotFromText (mode : Option String) (v : Value) : Prop :=
  v.FromText ∧ ∀ m ∈ mode, Text.isAllBlank m.toList = false

theorem ops_read_fromText (lookup : Lookup) (d : Declaration) :
    ∀ op ∈ d.ops (d.read lookup), ∀ x ∈ op.values, SlotFromText x.1 x.2 := by
  unfold Declaration.read
  cases hp : d.placement with
  | malformed => exact nofun
  | topLevel =>
    simp only
    cases hc : classify lookup d.value with
    | none => exact nofun
    | some c =>
      obtain ⟨hs, hd⟩ := classify_fromText hc
      cases c with
      | single v => simp [Declaration.ops, TableOp.values, SlotFromText, hs v rfl]
      | dual l d' =>
        have hl : Text.isAllBlank lightMode.toList = false := by decide
        have hk : Text.isAllBlank darkMode.toList = false := by decide
        obtain ⟨hlight, hdark⟩ := hd l d' rfl
        simp only [Option.elim_some, Declaration.ops, List.forall_mem_singleton, TableOp.values,
          List.forall_mem_cons, List.map_cons, List.map_nil, SlotFromText]
        simp [hlight, hdark, hl, hk]
  | mode m =>
    simp only
    cases hc : classifyMode d.value with
    | none => exact nofun
    | some v =>
      simp [Declaration.ops, TableOp.values, SlotFromText, classifyMode_fromText hc,
        isAllBlank_of_placement hp]

end Reading

section

variable {P : Concrete → Prop} {Q : Option String → Value → Prop}

theorem Value.all_concrete {c : Concrete} (h : P c) : (Value.concrete c).All P := by
  rintro _ ⟨⟩
  exact h

theorem Value.FromText.all (hP : Written P) {v : Value} (h : v.FromText) : v.All P := by
  rcases h with _ | x | c | _
  · exact nofun
  · exact all_concrete (hP.number x)
  · exact all_concrete (hP.clamp c)
  · exact all_concrete hP.zero

/-! ## Tables -/

/-- **All values of a pass come from the text.** -/
theorem passOver_fromText (snapshot : Snapshot) (ds : List Declaration) :
    (passOver snapshot ds).table.All SlotFromText := by
  rw [table_passOver]
  refine Table.Slots.run (R := fun mode s => SlotFromText mode s.value) ⟨.zero, nofun⟩
    fun op hop => ?_
  obtain ⟨x, hx, hop⟩ := List.mem_flatMap.1 hop
  obtain ⟨i, hi, rfl⟩ := List.mem_mapIdx.1 hx
  exact ops_read_fromText _ _ op hop

/-! ## Settled tables -/

section Settled

variable {t : Table} {snapshot : Snapshot}

theorem Table.All.slot? (h : t.All Q) {p : Place} {s : Slot} (hs : t.slot? p = some s) :
    Q p.mode s.value := by
  obtain ⟨v, hv, hs⟩ := Option.bind_eq_some_iff.1 hs
  exact h v (Table.mem_of_get? hv) p.mode s hs

/-- Following aliases ends with a value of the table or of the snapshot. -/
theorem Table.Reaches.all (h : t.All fun _ => Value.All P) (hs : snapshot.All P) {p : Place}
    {c : Concrete} (hr : t.Reaches snapshot p c) : P c := by
  induction hr with
  | here hslot hc => exact h.slot? hslot _ hc
  | value _ _ hn =>
    unfold successor? at hn
    split at hn
    · obtain ⟨_, _, hn⟩ := Option.map_eq_some_iff.1 hn
      cases hn
    · obtain ⟨_, hget, hn⟩ := Option.map_eq_some_iff.1 hn
      cases hn
      exact hs _ _ hget
  | place _ _ _ _ ih => exact ih

theorem Resolution.Exact.all {r : Resolution} (hr : r.Exact t snapshot)
    (h : t.All fun _ => Value.All P) (hs : snapshot.All P) {p : Place} {s : Slot}
    (hslot : r.table.slot? p = some s) : s.value.All P := by
  intro c hc
  have hreach : t.Reaches snapshot p c := by
    rw [← hr.concrete?_eq_some_iff, hslot]
    exact Value.concrete?_eq_some_iff.2 hc
  exact hreach.all h hs

theorem readStylesheet_all (hP : Written P) (hs : snapshot.All P) (css : String) {v : Variable}
    (hv : v ∈ (readStylesheet css snapshot).vars) : v.All fun _ => Value.All P := by
  intro mode s hslot
  have ht : (passOver snapshot (scan css)).table.All fun _ => Value.All P := fun v hv mode s hs =>
    (passOver_fromText snapshot _ v hv mode s hs).1.all hP
  exact (readStylesheet_exact css snapshot).all ht hs ((slot?_readStylesheet hv mode).trans hslot)

theorem isAllBlank_of_mem_vars {css : String} {v : Variable}
    (hv : v ∈ (readStylesheet css snapshot).vars) {m : String} {s : Slot}
    (hs : v.modes.get? m = some s) : Text.isAllBlank m.toList = false := by
  obtain ⟨s₀, hs₀⟩ := (readStylesheet_exact css snapshot).exists_slot?
    ((slot?_readStylesheet hv (some m)).trans hs)
  exact ((passOver_fromText snapshot _).slot? hs₀).2 m rfl

end Settled

/-! ## Stores -/

theorem fallback_all (hP : Written P) (k : Kind) : P (fallback k) := by
  unfold fallback
  split
  · exact hP.number _
  · exact hP.zero

theorem Stored.mem_values_ofEntry {e : Entry} {x : Value} : x ∈ (Stored.ofEntry e).values ↔
    x = e.value.value ∨ ∃ m s, e.modes.get? m = some s ∧ s.value = x := by
  simp only [← SortedMap.mem_entries_iff]
  simp [Stored.values, Stored.ofEntry, SortedMap.mapValues, SortedMap.values]

theorem Stored.all_ofEntry (hP : Written P) {settings : Settings} {v : Variable}
    (hv : v.All fun _ => Value.All P) {e : Entry} (he : v.finalized? settings = some e) :
    (Stored.ofEntry e).All P := by
  intro x hx
  rcases Stored.mem_values_ofEntry.1 hx with rfl | ⟨m, s, hs, rfl⟩
  · rw [v.value_of_finalized? he, Variable.finalBase]
    split_ifs
    · exact hv none v.base rfl
    · exact Value.all_concrete (fallback_all hP e.kind)
  · exact hv (some m) s ((v.get?_modes_of_finalized? he).1 hs).1

theorem Store.All.values {s : Store} (h : s.All (Stored.All P)) : ∀ v ∈ s.values, v.All P := by
  intro v hv
  obtain ⟨w, hw, hv⟩ := List.mem_flatMap.1 hv
  obtain ⟨c, hc, hw⟩ := List.mem_flatMap.1 hw
  exact h c hc w hw v hv

theorem Snapshot.All.insert {s : Snapshot} (h : s.All P) (name : String) {v : Value}
    (hv : v.All P) : (s.insert name v).All P := by
  rcases v with c | target
  · intro n c' hc'
    have hget := SortedMap.get?_insert s.entries name n c
    change (s.entries.insert name c).get? n = some c' at hc'
    rw [hget] at hc'
    split_ifs at hc'
    · cases hc'
      exact hv c rfl
    · exact h n c' hc'
  · exact h

theorem Snapshot.All.insertWithCode {s : Snapshot} (h : s.All P) (name : String)
    (code : Option String) {v : Value} (hv : v.All P) : (s.insertWithCode name code v).All P := by
  unfold Snapshot.insertWithCode
  cases code.bind nameInCode? with
  | none => exact h.insert name hv
  | some flat => exact (h.insert flat hv).insert name hv

theorem foldl_insertWithCode_all {vars : List Stored} (hv : ∀ v ∈ vars, v.All P) {t : Snapshot}
    (h : t.All P) : (vars.foldl (fun t v =>
      t.insertWithCode v.name (some v.codeSyntax) v.value) t).All P := by
  induction vars generalizing t with
  | nil => exact h
  | cons v vars ih =>
    refine ih (fun w hw => hv w (List.mem_cons_of_mem v hw)) ?_
    exact h.insertWithCode v.name _ (hv v List.mem_cons_self v.value List.mem_cons_self)

theorem Store.All.existing {s : Store} (h : s.All (Stored.All P)) : s.existing.All P := by
  refine foldl_insertWithCode_all (fun v hv => ?_) nofun
  obtain ⟨c, hc, hv⟩ := List.mem_flatMap.1 hv
  exact h c hc v hv

theorem Store.All.runImport (hP : Written P) {s s' : Store} (h : s.All (Stored.All P))
    {css : String} {settings : Settings} {summary : Summary}
    (hi : (runImport css settings s).result = (.ok summary, s')) : s'.All (Stored.All P) := by
  refine h.apply (fun e he => ?_) hi
  obtain ⟨v, hv, he⟩ := mem_finalize_iff.1 he
  exact Stored.all_ofEntry hP (readStylesheet_all hP h.existing css hv) he

/-- **What holds of every number and of every displayable color holds of all values of a reachable
store.** -/
theorem Store.Reachable.all (hP : Written P) {s : Store} (h : s.Reachable) :
    ∀ v ∈ s.values, v.All P := by
  refine Store.All.values (P := P) ?_
  induction h with
  | empty => exact nofun
  | imported _ hi ih => exact ih.runImport hP hi

end

end DesignVars
