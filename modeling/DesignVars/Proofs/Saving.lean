import DesignVars.Proofs.Classification
import DesignVars.Proofs.Color.Finite
import DesignVars.Proofs.Document
import DesignVars.Proofs.Files
import DesignVars.Proofs.Sheet
import Mathlib.Data.List.TakeWhile

/-!
# Saving and loading a store

* `Store.Reachable.areFinite_floats`: of the floats in a reachable store only the numbers may not
  be finite;
* `runImport_number`, `reachable_ofNumber`: digits of any length are taken in as a number, even if
  no finite float is near it;
* **`loadStore_saved`**: a saved store that imports have made is loaded as it was if all its numbers
  are finite, and is refused if one of them is not;
* **`not_forall_loaded`**: so there are reachable stores that are saved and then refused.
-/

namespace DesignVars

open Text Decimal

/-! ## Numbers of a store -/

def Store.numbers (s : Store) : List Float := s.values.flatMap Value.numbers

theorem Store.Reachable.areFinite_floats {s : Store} (h : s.Reachable) :
    areFinite s.floats = areFinite s.numbers := by
  have hP : Written fun c => ∀ r, c = .color r → areFinite r.floats = true := by
    refine ⟨fun x => nofun, fun c => ?_, ?_⟩
    · rintro _ ⟨⟩
      exact areFinite_clamp c
    · rintro _ ⟨⟩
      rfl
  have hv : ∀ v ∈ s.values, areFinite v.floats = areFinite v.numbers := by
    intro v hv
    rcases v with (x | c) | target
    · rfl
    · exact h.all hP _ hv _ rfl c rfl
    · rfl
  rw [Store.floats, Store.numbers, areFinite_flatMap, areFinite_flatMap, Bool.eq_iff_iff]
  simp only [List.all_eq_true]
  exact forall₂_congr fun v hmem => by rw [hv v hmem]

/-! ## Numbers of any length -/

/-- The number nearest to what digits write, which is infinite if they write too much. -/
def numberOfDigits (ds : List Char) : Float := Numeral.toFloat ⟨false, natOfDigits ds, 0⟩

section Digits

variable {ds : List Char} (hne : ds ≠ []) (hd : ∀ c ∈ ds, isDigit c = true)

include hd

theorem numeral_digits : ∀ c ∈ ds, isNumeral c = true := fun c hc => isNumeral_of_isDigit (hd c hc)

theorem takeDigits_digits : takeDigits ds = (ds, []) := by
  unfold takeDigits
  rw [Prod.mk.injEq, List.takeWhile_eq_self_iff, List.dropWhile_eq_nil_iff]
  exact ⟨hd, hd⟩

include hne

theorem readPlain?_digits : readPlain? ds = some ⟨false, natOfDigits ds, 0⟩ := by
  have hs : takeSign ds = (false, ds) := by
    refine takeSign.eq_3 ds ?_ ?_
    · rintro cs rfl
      exact absurd (hd '-' List.mem_cons_self) (by decide)
    · rintro cs rfl
      exact absurd (hd '+' List.mem_cons_self) (by decide)
  simp [readPlain?, hs, takeDigits_digits hd, hne]

theorem classify_digits (lookup : Lookup) : classify lookup (String.ofList ds) =
    some (.single (.concrete (.number (numberOfDigits ds)))) := by
  have ht : trimmed (String.ofList ds) = String.ofList ds := by
    rw [trimmed, String.toList_ofList, trim_numeral (numeral_digits hd)]
  have hp : plainNumber? (String.ofList ds) = some (numberOfDigits ds) := by
    rw [plainNumber?, String.toList_ofList, readPlain?_digits hne hd]
    rfl
  simp only [classify, ht, aliasOf?_numeral (numeral_digits hd), hp]

omit hne in
theorem scan_digits : scan (String.ofList (written "a" ds ++ [';'])) =
    [⟨"a", String.ofList ds, none, none, none⟩] := by
  have hplain := fun c hc => isPlain_of_isNumeral (numeral_digits hd c hc)
  have hclean : Clean false (written "a" ds) :=
    clean_written (by decide) (clean_of_plain fun c hc => (hplain c hc).1)
  have hs := Scanner.declarations_declaration hclean [] []
    (declaration?_written (by decide) ds [])
  rw [trim_numeral (numeral_digits hd), Scanner.declarations_nil] at hs
  rw [scan, Scanner.ofText, String.toList_ofList, hs]
  rfl

end Digits

/-- The entry of a variable that is a number. -/
def Entry.ofNumber (x : Float) : Entry where
  name := "a"
  path := pathOfName "a"
  kind := .number
  value := { value := .concrete (.number x) }
  modes := .empty
  description := none
  scopes := inferScopes "a" .number

/-- The store with one number. -/
def Store.ofNumber (x : Float) : Store :=
  ⟨SortedMap.empty.insert defaultCollection ⟨[.ofEntry (.ofNumber x)]⟩⟩

theorem runImport_number {css text : String} {x : Float}
    (hs : scan css = [⟨"a", text, none, none, none⟩])
    (hc : ∀ lookup, classify lookup text = some (.single (.concrete (.number x)))) :
    (runImport css .default {}).result = (.ok ⟨defaultCollection, 1, 0⟩, Store.ofNumber x) := by
  have hr (lookup) : Declaration.read lookup ⟨"a", text, none, none, none⟩ =
      .base (.single (.concrete (.number x))) := by
    have hp : Declaration.placement ⟨"a", text, none, none, none⟩ = .topLevel := rfl
    simp only [Declaration.read, hp, hc, Option.elim_some]
  have hp (snapshot) : passOver snapshot (scan css) =
      ⟨Table.empty.declare "a" (.concrete (.number x)) none, []⟩ := by
    rw [hs, passOver, List.foldl_cons, List.foldl_nil, Pass.step, hr]
    rfl
  have hv (snapshot) : (readStylesheet css snapshot).vars =
      [.ofValue "a" (.concrete (.number x)) none] := by
    rw [readStylesheet, hp]
    rfl
  have hf : finalize .default [.ofValue "a" (.concrete (.number x)) none] = [.ofNumber x] := rfl
  have ha : Store.apply {} defaultCollection [.ofNumber x] =
      (.ok ⟨defaultCollection, 1, 0⟩, Store.ofNumber x) :=
    Store.apply_eq_ok_iff.2 ⟨rfl, rfl, rfl⟩
  rw [runImport, hv, hf]
  exact ha

theorem reachable_ofNumber {ds : List Char} (hne : ds ≠ []) (hd : ∀ c ∈ ds, isDigit c = true) :
    (Store.ofNumber (numberOfDigits ds)).Reachable :=
  .imported .empty (runImport_number (scan_digits hd) (classify_digits hne hd))

theorem areFinite_numbers_ofNumber (x : Float) :
    areFinite (Store.ofNumber x).numbers = x.isFinite := Bool.and_true _

theorem faithful_ofNumber {x : Float} (h : Faithful x) :
    ∀ y ∈ (Store.ofNumber x).floats, Faithful y := by
  intro y hy
  rw [List.mem_singleton.1 hy]
  exact h

/-! ## Loading what was saved -/

theorem write_new (text : String) :
    ({} : FileTree).write "store.json" text = .ok (({} : FileTree).put ["store.json"] text) := rfl

section Saved

variable {s : Store} (h : s.Reachable) (hf : ∀ x ∈ s.floats, Faithful x)

include h hf

theorem ofDocument?_saved :
    Store.ofDocument? s.document = if areFinite s.numbers then some s else none := by
  rw [Store.ofDocument?_document hf, Option.guard, h.areFinite_floats]

/-- **A saved store is loaded as it was if all its numbers are finite, and refused if one of them is
not.** -/
theorem loadStore_saved {t t' : FileTree} {path : String} (hw : t.write path s.document = .ok t') :
    (loadStore path : Loading (StateM FileTree) Store).run.run t' =
      (if areFinite s.numbers then .ok s else .error (.storeRefused path), t') := by
  rw [FileTree.run_loadStore_write hw, ofDocument?_saved h hf]
  split_ifs <;> rfl

end Saved

theorem loadStore_saved_one :
    (Store.ofNumber (numberOfDigits ['1'])).Reachable ∧
    (∀ x ∈ (Store.ofNumber (numberOfDigits ['1'])).floats, Faithful x) ∧
    ((loadStore "store.json" : Loading (StateM FileTree) Store).run.run
      (({} : FileTree).put ["store.json"] (Store.ofNumber (numberOfDigits ['1'])).document)).1 =
      .ok (Store.ofNumber (numberOfDigits ['1'])) := by
  have hr : (Store.ofNumber (numberOfDigits ['1'])).Reachable :=
    reachable_ofNumber (List.cons_ne_nil _ _) (List.forall_mem_singleton.2 rfl)
  have hf : ∀ x ∈ (Store.ofNumber (numberOfDigits ['1'])).floats, Faithful x :=
    faithful_ofNumber fun _ => by decide +kernel
  have hx : (numberOfDigits ['1']).isFinite = true := by decide +kernel
  refine ⟨hr, hf, ?_⟩
  rw [loadStore_saved hr hf (write_new _), areFinite_numbers_ofNumber, hx]
  rfl

/-- **Not every saved store is loaded.** A number with 310 digits is stored as an infinite one and
saved as `null`, and then no value of the store can be had any more. -/
theorem not_forall_loaded : ¬ ∀ (s : Store) (t t' : FileTree) (path : String), s.Reachable →
    (∀ x ∈ s.floats, Faithful x) → t.write path s.document = .ok t' →
    ((loadStore path : Loading (StateM FileTree) Store).run.run t').1 = .ok s := by
  intro h
  have hx : (numberOfDigits (List.replicate 310 '1')).isFinite = false := by decide +kernel
  have hr : (Store.ofNumber (numberOfDigits (List.replicate 310 '1'))).Reachable :=
    reachable_ofNumber (List.cons_ne_nil _ _) fun c hc => by
      rw [List.eq_of_mem_replicate hc]
      rfl
  have hf := faithful_ofNumber (x := numberOfDigits (List.replicate 310 '1')) <| by
    intro hfin
    rw [hx] at hfin
    cases hfin
  have hl := h _ _ _ _ hr hf (write_new _)
  rw [FileTree.run_loadStore_write (write_new _), ofDocument?_saved hr hf,
    areFinite_numbers_ofNumber, hx] at hl
  cases hl

end DesignVars
