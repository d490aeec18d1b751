import DesignVars.Proofs.Store
import DesignVars.Proofs.Text.Bytes
import Mathlib.Computability.RegularExpressions

/-!
# References to variables

Two readers take the name out of a reference, and two writers make one.

* `namePattern`, `referencePattern`: names and references as regular expressions, of which the
  former is the part that is read;
* `strippedName?`: the name that is left when the text around it is taken off;
* `aliasOf?_eq_some_iff`, `nameInCode?_eq_some_iff`: both readers accept exactly the references to
  valid names, one of them up to outer blanks;
* `Registration`, `Snapshot.registerAll`: values that a snapshot takes in one after the other, each
  with a reference for its code syntax;
* `Snapshot.get?_register_self`, `Snapshot.get?_registerAll_of_ne`: what is found after one and
  after all of them;
* **`reference_exact`**: so a reference is written in one way, read in one way, and finds the last
  value that was taken in for its name.
-/

namespace DesignVars

open Text

/-! ## Patterns -/

/-- Any one of these characters. -/
def oneOf (cs : List Char) : RegularExpression Char := (cs.map .char).sum

/-- These characters in this order. -/
def inSequence (cs : List Char) : RegularExpression Char := (cs.map .char).prod

/-- The characters from one to another. -/
def charsFrom (a b : Char) : List Char :=
  (List.range' a.toNat (b.toNat + 1 - a.toNat)).map Char.ofNat

/-- The class `[A-Za-z0-9_-]`. -/
def nameLetters : List Char :=
  charsFrom 'A' 'Z' ++ charsFrom 'a' 'z' ++ charsFrom '0' '9' ++ ['_', '-']

/-- The pattern `[A-Za-z0-9_-]+`. -/
def namePattern : RegularExpression Char := oneOf nameLetters * (oneOf nameLetters).star

/-- The pattern `var\(--[A-Za-z0-9_-]+\)`. -/
def referencePattern : RegularExpression Char :=
  inSequence "var(--".toList * namePattern * .char ')'

theorem mem_oneOf_iff {cs w : List Char} : w ∈ (oneOf cs).matches' ↔ ∃ c ∈ cs, w = [c] := by
  induction cs with
  | nil => simp [oneOf]
  | cons c cs ih =>
    rw [oneOf, List.map_cons, List.sum_cons, RegularExpression.matches'_add, Language.mem_add,
      ← oneOf, ih, List.exists_mem_cons_iff]
    exact Iff.rfl

theorem mem_inSequence_iff {cs w : List Char} : w ∈ (inSequence cs).matches' ↔ w = cs := by
  induction cs generalizing w with
  | nil => exact Iff.rfl
  | cons c cs ih =>
    rw [inSequence, List.map_cons, List.prod_cons, RegularExpression.matches'_mul,
      Language.mem_mul, ← inSequence]
    simp only [ih, exists_eq_left]
    constructor
    · rintro ⟨a, rfl, rfl⟩
      rfl
    · rintro rfl
      exact ⟨[c], rfl, rfl⟩

theorem mem_star_oneOf_iff {cs w : List Char} :
    w ∈ (oneOf cs).star.matches' ↔ ∀ c ∈ w, c ∈ cs := by
  rw [RegularExpression.matches'_star, Language.mem_kstar]
  constructor
  · rintro ⟨words, rfl, hw⟩ c hc
    obtain ⟨word, hword, hc⟩ := List.mem_flatten.1 hc
    obtain ⟨d, hd, rfl⟩ := mem_oneOf_iff.1 (hw word hword)
    rwa [List.mem_singleton.1 hc]
  · intro h
    refine ⟨w.map fun c => [c], ?_, fun word hword => ?_⟩
    · rw [← List.flatMap_def, List.flatMap_singleton']
    obtain ⟨c, hc, rfl⟩ := List.mem_map.1 hword
    exact mem_oneOf_iff.2 ⟨c, h c hc, rfl⟩

theorem mem_nameLetters_iff {c : Char} : c ∈ nameLetters ↔ isNameLetter c = true := by
  have hlt (h : c ∈ nameLetters ∨ isNameLetter c = true) : c.toNat < 128 := by
    rcases h with h | h
    · have hall : nameLetters.all (·.toNat < 128) = true := by decide +kernel
      exact of_decide_eq_true (List.all_eq_true.1 hall c h)
    · exact toNat_lt_of_isNameLetter h
  have hiff (hc : c.toNat < 128) : c ∈ nameLetters ↔ isNameLetter c = true :=
    of_ascii (Q := fun c => c ∈ nameLetters ↔ isNameLetter c = true) (by decide +kernel) hc
  exact ⟨fun h => (hiff (hlt (.inl h))).1 h, fun h => (hiff (hlt (.inr h))).2 h⟩

theorem mem_namePattern_iff {name : String} :
    name.toList ∈ namePattern.matches' ↔ isValidName name = true := by
  have hvalid : isValidName name = true ↔
      name.toList ≠ [] ∧ ∀ c ∈ name.toList, c ∈ nameLetters := by
    simp only [isValidName, Bool.and_eq_true, Bool.not_eq_true', List.all_eq_true,
      mem_nameLetters_iff, ← Bool.not_eq_true, String.isEmpty_iff, ne_eq, String.toList_eq_nil_iff]
  rw [hvalid, namePattern, RegularExpression.matches'_mul, Language.mem_mul]
  simp only [mem_oneOf_iff, mem_star_oneOf_iff]
  constructor
  · rintro ⟨_, ⟨c, hc, rfl⟩, w, hw, he⟩
    rw [← he]
    exact ⟨List.cons_ne_nil c w, List.forall_mem_cons.2 ⟨hc, hw⟩⟩
  · rintro ⟨hne, h⟩
    obtain ⟨c, w, he⟩ := List.exists_cons_of_ne_nil hne
    rw [he] at h ⊢
    obtain ⟨hc, hw⟩ := List.forall_mem_cons.1 h
    exact ⟨[c], ⟨c, hc, rfl⟩, w, hw, rfl⟩

theorem mem_referencePattern_iff {text : String} : text.toList ∈ referencePattern.matches' ↔
    ∃ name, text = reference name ∧ isValidName name = true := by
  rw [referencePattern, RegularExpression.matches'_mul, RegularExpression.matches'_mul,
    Language.mem_mul]
  simp only [Language.mem_mul, mem_inSequence_iff]
  constructor
  · rintro ⟨_, ⟨_, rfl, w, hw, rfl⟩, _, rfl, he⟩
    refine ⟨String.ofList w, ?_, mem_namePattern_iff.1 (by rwa [String.toList_ofList])⟩
    rw [← String.toList_inj, ← he, toList_reference, String.toList_ofList, List.append_assoc]
    exact congrArg _ (congrArg (· ++ [')']) String.toList_ofList.symm)
  · rintro ⟨name, rfl, hn⟩
    refine ⟨_, ⟨_, rfl, name.toList, mem_namePattern_iff.2 hn, rfl⟩, [')'], rfl, ?_⟩
    rw [toList_reference, List.append_assoc]
    rfl

/-! ## Readers -/

theorem reference_injective : Function.Injective reference := fun a b h => by
  have hl := congrArg String.toList h
  rw [toList_reference, toList_reference, List.append_cancel_left_eq,
    List.append_cancel_right_eq] at hl
  exact String.toList_inj.1 hl

theorem referenceName?_eq_some_iff {cs : List Char} {name : String} :
    referenceName? cs = some name ↔ cs = (reference name).toList ∧ isValidName name = true := by
  constructor
  · intro h
    obtain ⟨rest, hrest, h⟩ := Option.bind_eq_some_iff.1 h
    obtain ⟨hc, h⟩ := Option.ite_none_right_eq_some.1 h
    obtain rfl := Option.some.inj h
    obtain ⟨hlast, hvalid⟩ := Bool.and_eq_true_iff.1 hc
    refine ⟨?_, hvalid⟩
    rw [← List.append_eq_of_isPrefixOf?_eq_some hrest, toList_reference, String.toList_ofList,
      List.dropLast_append_getLast? _ (of_decide_eq_true hlast)]
  · rintro ⟨rfl, hn⟩
    exact referenceName?_reference hn

theorem aliasOf?_eq_some_iff {text name : String} :
    aliasOf? text = some name ↔ text = reference name ∧ isValidName name = true := by
  rw [aliasOf?, referenceName?_eq_some_iff, String.toList_inj]

theorem nameInCode?_eq_some_iff {code name : String} :
    nameInCode? code = some name ↔ aliasOf? (trimmed code) = some name := by
  rw [aliasOf?, trimmed, String.toList_ofList, nameInCode?]

/-- The name in a code syntax: what is left without outer blanks, the beginning of a reference and
its end, if that is a valid name. -/
def strippedName? (code : String) : Option String :=
  ("var(--".toList.isPrefixOf? (trim code.toList)).bind fun rest =>
    ([')'].isSuffixOf? rest).bind fun name =>
      if isValidName (String.ofList name) then some (String.ofList name) else none

/-- **Taking the text around a name off reads the same references.** -/
theorem strippedName?_eq (code : String) : strippedName? code = nameInCode? code := by
  refine Option.ext fun name => ?_
  rw [nameInCode?, referenceName?_eq_some_iff, toList_reference, strippedName?]
  simp only [Option.bind_eq_some_iff, List.isSuffixOf?_eq_some_iff_append_eq,
    Option.ite_none_right_eq_some]
  constructor
  · rintro ⟨_, hrest, w, rfl, hvalid, he⟩
    obtain rfl := Option.some.inj he
    rw [String.toList_ofList]
    exact ⟨(List.append_eq_of_isPrefixOf?_eq_some hrest).symm, hvalid⟩
  · rintro ⟨he, hvalid⟩
    refine ⟨name.toList ++ [')'], ?_, name.toList, rfl, ?_⟩
    · rw [he]
      exact isPrefixOf?_append _ _
    · rw [String.ofList_toList]
      exact ⟨hvalid, rfl⟩

/-! ## Snapshots -/

/-- A value that a snapshot takes in under a name of its own, with a reference for its code
syntax. -/
structure Registration where
  name : String
  /-- The name that the code syntax refers to. -/
  flat : String
  value : Value

namespace Snapshot

def register (s : Snapshot) (r : Registration) : Snapshot :=
  s.insertWithCode r.name (some (reference r.flat)) r.value

def registerAll (s : Snapshot) (rs : List Registration) : Snapshot := rs.foldl register s

variable {name : String}

theorem get?_register_self (hn : isValidName name = true) (s : Snapshot) (own : String)
    (c : Concrete) : (s.register ⟨own, name, .concrete c⟩).get? name = some c := by
  rw [register, insertWithCode, Option.bind_some, nameInCode?_reference hn]
  simp only [get?_insert, if_true, Value.concrete?, Option.some_or, ite_self]

theorem get?_register_of_ne {r : Registration} (h : r.name ≠ name ∧ r.flat ≠ name) (s : Snapshot) :
    (s.register r).get? name = s.get? name := by
  rw [register, insertWithCode, Option.bind_some, get?_insert, if_neg h.1]
  split
  · rename_i flat hflat
    rw [nameInCode?, trim_reference, referenceName?_eq_some_iff, String.toList_inj] at hflat
    rw [get?_insert, if_neg (reference_injective hflat.1 ▸ h.2)]
  · rfl

theorem get?_registerAll_of_ne {rs : List Registration}
    (h : ∀ r ∈ rs, r.name ≠ name ∧ r.flat ≠ name) (s : Snapshot) :
    (s.registerAll rs).get? name = s.get? name := by
  induction rs generalizing s with
  | nil => rfl
  | cons r rs ih =>
    obtain ⟨hr, h⟩ := List.forall_mem_cons.1 h
    exact (ih h (s.register r)).trans (get?_register_of_ne hr s)

/-- **The last value for a name is found**, whatever was taken in before it. -/
theorem get?_registerAll (hn : isValidName name = true) (s : Snapshot)
    (before : List Registration) (own : String) (c : Concrete) {later : List Registration}
    (h : ∀ r ∈ later, r.name ≠ name ∧ r.flat ≠ name) :
    (s.registerAll (before ++ ⟨own, name, .concrete c⟩ :: later)).get? name = some c := by
  rw [registerAll, List.foldl_append, List.foldl_cons]
  exact (get?_registerAll_of_ne h _).trans (get?_register_self hn _ own c)

end Snapshot

/-! ## References -/

theorem isSome_aliasOf?_iff {text : String} :
    (aliasOf? text).isSome = true ↔ text.toList ∈ referencePattern.matches' := by
  simp only [Option.isSome_iff_exists, aliasOf?_eq_some_iff, mem_referencePattern_iff]

/-- **A reference is written in one way and read in one way.** What both readers accept is given by
the patterns, and by what is left when the text around the name is taken off. What is written for an
alias and for the code syntax of an entry is read as the name again, and finds the last value that
a snapshot has taken in for it. -/
theorem reference_exact :
    (∀ text name, aliasOf? text = some name ↔
      text = "var(--" ++ name ++ ")" ∧ isValidName name = true) ∧
    (∀ text, (aliasOf? text).isSome = true ↔ text.toList ∈ referencePattern.matches') ∧
    (∀ name, isValidName name = true ↔ name.toList ∈ namePattern.matches') ∧
    (∀ code name, nameInCode? code = some name ↔ aliasOf? (trimmed code) = some name) ∧
    (∀ code, nameInCode? code = strippedName? code) ∧
    ∀ name, isValidName name = true →
      (∀ e : Entry, e.name = name → e.codeSyntax = (Value.alias name).text) ∧
      aliasOf? (Value.alias name).text = some name ∧
      nameInCode? (Value.alias name).text = some name ∧
      ∀ (s : Snapshot) (before later : List Registration) (own : String) (c : Concrete),
        (∀ r ∈ later, r.name ≠ name ∧ r.flat ≠ name) →
        (aliasOf? (Value.alias name).text).bind
          (s.registerAll (before ++ ⟨own, name, .concrete c⟩ :: later)).get? = some c := by
  refine ⟨fun _ _ => aliasOf?_eq_some_iff, fun _ => isSome_aliasOf?_iff,
    fun _ => mem_namePattern_iff.symm, fun _ _ => nameInCode?_eq_some_iff,
    fun code => (strippedName?_eq code).symm, fun name hn => ?_⟩
  have hread : aliasOf? (Value.alias name).text = some name := aliasOf?_eq_some_iff.2 ⟨rfl, hn⟩
  refine ⟨fun e he => congrArg reference he, hread, nameInCode?_reference hn,
    fun s before later own c h => ?_⟩
  rw [hread, Option.bind_some]
  exact s.get?_registerAll hn before own c h

theorem reference_exact_gap : isValidName "gap-sm" = true ∧
    (∀ r ∈ [Registration.mk "gap/lg" "gap-lg" (.concrete (.number 24.0))],
      r.name ≠ "gap-sm" ∧ r.flat ≠ "gap-sm") ∧
    (aliasOf? (Value.alias "gap-sm").text).bind (Snapshot.empty.registerAll
      [⟨"gap-sm", "gap", .concrete (.number 4.0)⟩, ⟨"gap/sm", "gap-sm", .alias "gap"⟩,
        ⟨"gap/sm", "gap-sm", .concrete (.number 8.0)⟩,
        ⟨"gap/lg", "gap-lg", .concrete (.number 24.0)⟩]).get? = some (.number 8.0) := by
  have hn : isValidName "gap-sm" = true := by decide +kernel
  have hlater : ∀ r ∈ [Registration.mk "gap/lg" "gap-lg" (.concrete (.number 24.0))],
      r.name ≠ "gap-sm" ∧ r.flat ≠ "gap-sm" :=
    List.forall_mem_singleton.2 ⟨by decide, by decide⟩
  exact ⟨hn, hlater, (reference_exact.2.2.2.2.2 "gap-sm" hn).2.2.2 Snapshot.empty
    [⟨"gap-sm", "gap", .concrete (.number 4.0)⟩, ⟨"gap/sm", "gap-sm", .alias "gap"⟩] _ "gap/sm" _
    hlater⟩

end DesignVars
