import DesignVars.Proofs.Color.Hex
import DesignVars.Proofs.List

/-!
# Values that are written and read again

* `isNumeral`, `numeral_write`: the characters of which finite numbers are written;
* `readColor?_numeral`: what is made of them is no color;
* `Concrete.ReadsBack`, `Concrete.rounded`: numbers whose text is read as the same number, and what
  the text of a value is read as;
* **`classify_text`**, **`classifyMode_text`**: at the top level every value is read again, in a
  mode block only the colors are.
-/

namespace DesignVars

open Text Css Decimal

/-! ## The characters of numbers -/

/-- Digits, the point and the hyphen. -/
def isNumeral (c : Char) : Bool := isDigit c || c == '.' || c == '-'

theorem isNumeral_of_isDigit {c : Char} (h : isDigit c = true) : isNumeral c = true := by
  rw [isNumeral, h, Bool.true_or, Bool.true_or]

theorem isPlain_of_isNumeral {c : Char} (h : isNumeral c = true) :
    isPlain c = true ∧ isBlank c = false := by
  simp only [isNumeral, Bool.or_eq_true, beq_iff_eq] at h
  rcases h with (h | rfl) | rfl
  · have hn : isNameLetter c = true := by simp [isNameLetter, h]
    exact ⟨(isPlain_of_isNameLetter hn).1, (isPlain_of_isNameLetter hn).2.1⟩
  · decide
  · decide

theorem numeral_digitText (n : Nat) : ∀ c ∈ digitText n, isNumeral c = true := by
  intro c hc
  have hd : c.isDigit = true := Nat.isDigit_of_mem_toDigits (by decide) (by decide) hc
  exact isNumeral_of_isDigit hd

theorem numeral_positional {ds : List Char} (h : ∀ c ∈ ds, isNumeral c = true) (whole : Int) :
    ∀ c ∈ (positional ds whole "").toList, isNumeral c = true := by
  have hzero : ∀ n, ∀ c ∈ List.replicate n '0', isNumeral c = true := fun n c hc => by
    rw [List.eq_of_mem_replicate hc]
    rfl
  have hlead : ∀ c ∈ "0.".toList, isNumeral c = true := List.all_eq_true.1 rfl
  have hpoint : ∀ c ∈ ".".toList, isNumeral c = true := List.all_eq_true.1 rfl
  intro c hc
  simp only [positional] at hc
  split_ifs at hc <;>
    simp only [String.toList_append, String.toList_ofList, List.mem_append] at hc
  · rcases hc with hc | hc | hc
    · exact hlead c hc
    · exact hzero _ c hc
    · exact h c hc
  · rcases hc with (hc | hc) | hc
    · exact h c hc
    · exact hzero _ c hc
    · cases hc
  · rcases hc with (hc | hc) | hc
    · exact h c (List.mem_of_mem_take hc)
    · exact hpoint c hc
    · exact h c (List.mem_of_mem_drop hc)

theorem numeral_write {x : Float} (hx : x.isFinite = true) :
    ∀ c ∈ (Decimal.plain.write x).toList, isNumeral c = true := by
  have hnan : x.isNaN = false := by
    change x.toModel.unpack.isFinite = true at hx
    change x.toModel.unpack.isNaN = false
    generalize x.toModel.unpack = u at hx ⊢
    cases u with
    | notANumber => cases hx
    | infinity | zero | finite => rfl
  have hsign : ∀ c ∈ (if isNegative x then "-" else "").toList, isNumeral c = true := by
    split_ifs <;> exact List.all_eq_true.1 rfl
  have hzero : ∀ c ∈ "0".toList, isNumeral c = true := List.all_eq_true.1 rfl
  intro c hc
  rw [Notation.write, hnan, if_neg nofun, if_pos hx] at hc
  by_cases hm : (Binary.ofFloat x).m = 0
  · simp only [Notation.writeFinite, if_pos hm, String.toList_append, List.mem_append] at hc
    rcases hc with (hc | hc) | hc
    · exact hsign c hc
    · exact hzero c hc
    · cases hc
  · have hp : ∀ e, plain.isPositional e = true := fun _ => rfl
    simp only [Notation.writeFinite, if_neg hm, hp, if_true, String.toList_append,
      List.mem_append] at hc
    rcases hc with hc | hc
    · exact hsign c hc
    · exact numeral_positional (numeral_digitText _) _ c hc

/-! ## Numbers are no colors -/

theorem cut?_eq_none {sep : Char} {cs : List Char} (h : sep ∉ cs) : cut? sep cs = none := by
  induction cs with
  | nil => rfl
  | cons c cs ih =>
    rw [List.mem_cons, not_or] at h
    rw [cut?, if_neg (Ne.symm h.1), ih h.2]
    rfl

theorem isHexDigit_of_byteOfDigit? {c : Char} {n : Nat} (h : byteOfDigit? c = some n) :
    isHexDigit c = true := by
  obtain ⟨x, hx, -⟩ := Option.map_eq_some_iff.1 h
  rw [isHexDigit, hx, Option.isSome_some]

theorem isHexDigit_of_byteOfPair? {c d : Char} {n : Nat} (h : byteOfPair? c d = some n) :
    (c = '+' ∨ isHexDigit c = true) ∧ isHexDigit d = true := by
  unfold byteOfPair? at h
  unfold isHexDigit
  split_ifs at h with hc
  · exact ⟨.inl hc, by rw [h, Option.isSome_some]⟩
  · split at h
    · rename_i hx hy
      exact ⟨.inr (by rw [hx, Option.isSome_some]), by rw [hy, Option.isSome_some]⟩
    · cases h

theorem isHexDigit_of_hexColor? {cs : List Char} {c : Rgba} (h : hexColor? cs = some c) :
    ∀ d ∈ cs, d = '+' ∨ isHexDigit d = true := by
  unfold hexColor? at h
  split at h
  · simp only [Option.bind_eq_bind, Option.bind_eq_some_iff] at h
    obtain ⟨r, hr, g, hg, b, hb, -⟩ := h
    simp [isHexDigit_of_byteOfDigit? hr, isHexDigit_of_byteOfDigit? hg,
      isHexDigit_of_byteOfDigit? hb]
  · simp only [Option.bind_eq_bind, Option.bind_eq_some_iff] at h
    obtain ⟨r, hr, g, hg, b, hb, a, ha, -⟩ := h
    simp [isHexDigit_of_byteOfDigit? hr, isHexDigit_of_byteOfDigit? hg,
      isHexDigit_of_byteOfDigit? hb, isHexDigit_of_byteOfDigit? ha]
  · simp only [Option.bind_eq_bind, Option.bind_eq_some_iff] at h
    obtain ⟨r, hr, g, hg, b, hb, -⟩ := h
    simp [isHexDigit_of_byteOfPair? hr, isHexDigit_of_byteOfPair? hg,
      isHexDigit_of_byteOfPair? hb]
  · simp only [Option.bind_eq_bind, Option.bind_eq_some_iff] at h
    obtain ⟨r, hr, g, hg, b, hb, a, ha, -⟩ := h
    simp [isHexDigit_of_byteOfPair? hr, isHexDigit_of_byteOfPair? hg,
      isHexDigit_of_byteOfPair? hb, isHexDigit_of_byteOfPair? ha]
  · cases h

theorem namedColors_not_numeral :
    ∀ e ∈ namedColors, (lower e.1.toList).any (fun c => !isNumeral c) = true := by
  decide +kernel

section Numeral

variable {cs : List Char} (h : ∀ c ∈ cs, isNumeral c = true)

include h

theorem lower_numeral : lower cs = cs := by
  have hl : ∀ c ∈ cs, c.toLower = c := by
    intro c hc
    have hn := h c hc
    simp only [isNumeral, isDigit, Bool.or_eq_true, Bool.and_eq_true, decide_eq_true_eq,
      Char.le_def, UInt32.le_iff_toNat_le, beq_iff_eq] at hn
    rcases hn with (hn | rfl) | rfl
    · refine dif_neg ?_
      rintro ⟨hA, -⟩
      have hA : 65 ≤ c.val.toNat := UInt32.le_iff_toNat_le.1 hA
      have h9 : c.val.toNat ≤ 57 := hn.2
      omega
    · decide
    · decide
  rw [lower, List.map_congr_left hl, List.map_id']

theorem sameLetters_numeral {name : String}
    (hn : (lower name.toList).any (fun c => !isNumeral c) = true) :
    sameLetters name (String.ofList cs) = false := by
  rw [sameLetters, String.toList_ofList, lower_numeral h, beq_eq_false_iff_ne]
  intro he
  obtain ⟨c, hc, hn⟩ := List.any_eq_true.1 hn
  simp [h c (he ▸ hc)] at hn

theorem hexColor?_numeral (hw : isHexWord cs = false) : hexColor? cs = none := by
  rw [Option.eq_none_iff_forall_ne_some]
  intro c hc
  have hplus : '+' ∉ cs := fun hp => absurd (h '+' hp) (by decide)
  have hall : isHexWord cs = true := List.all_eq_true.2 fun d hd =>
    (isHexDigit_of_hexColor? hc d hd).resolve_left fun he => hplus (he ▸ hd)
  rw [hw] at hall
  cases hall

theorem plainColor?_numeral (hw : isHexWord cs = false) : plainColor? cs = none := by
  have hname : bytesOfName? (String.ofList cs) = none := by
    rw [bytesOfName?, List.find?_eq_none.2, Option.map_none]
    intro e he
    simp [sameLetters_numeral h (namedColors_not_numeral e he)]
  have hcall : splitCall? cs = none := by
    rw [splitCall?, cut?_eq_none fun hp => absurd (h '(' hp) (by decide), Option.bind_none]
  have ht : sameLetters (String.ofList cs) "transparent" = false := by
    rw [sameLetters, BEq.comm]
    exact sameLetters_numeral h (by decide)
  unfold plainColor?
  split
  · exact absurd (h '#' List.mem_cons_self) (by decide)
  · simp only [ht, hcall, hexColor?_numeral h hw, hname, Option.map_none]
    rfl

theorem not_prefix_numeral {p : Char} (hp : isNumeral p = false) (ps : List Char) :
    ¬p :: ps <+: cs := fun hps => by
  rw [h p (hps.subset List.mem_cons_self)] at hp
  cases hp

theorem trim_numeral : trim cs = cs :=
  trim_of_not_blank fun c hc => (isPlain_of_isNumeral (h c hc)).2

theorem readColor?_numeral : readColor? (String.ofList cs) = none := by
  have hlch : ¬"oklch(".toList <+: cs := not_prefix_numeral h (by decide) _
  have hlab : ¬"oklab(".toList <+: cs := not_prefix_numeral h (by decide) _
  simp only [readColor?, String.toList_ofList, trim_numeral h, lower_numeral h,
    List.isPrefixOf_iff_prefix, hlch, hlab, if_false]
  split_ifs with hw
  · rfl
  · exact plainColor?_numeral h (by simpa using hw)

theorem aliasOf?_numeral : aliasOf? (String.ofList cs) = none := by
  have hvar : ['v', 'a', 'r', '(', '-', '-'].isPrefixOf? cs = none :=
    isPrefixOf?_eq_none_iff.2 (not_prefix_numeral h (by decide) _)
  rw [aliasOf?, String.toList_ofList, referenceName?, hvar, Option.bind_none]

end Numeral

/-! ## Values -/

/-- What the text of a value is read as. -/
def Concrete.rounded : Concrete → Concrete
  | .number x => .number x
  | .color c => .color c.rounded

/-- The text of a number is read as the number, provided that it is finite. -/
def NumberReadsBack (x : Float) : Prop :=
  x.isFinite = true → plainNumber? (Decimal.plain.write x) = some x

instance (x : Float) : Decidable (NumberReadsBack x) :=
  inferInstanceAs (Decidable (_ → _))

/-- The value is a color, or a finite number whose text is read as that number. -/
def Concrete.ReadsBack : Concrete → Prop
  | .number x => x.isFinite = true ∧ plainNumber? (Decimal.plain.write x) = some x
  | .color _ => True

theorem kind_rounded (c : Concrete) : c.rounded.kind = c.kind := by
  cases c <;> rfl

section Text

variable {c : Concrete} (h : c.ReadsBack)

include h

/-- **At the top level every value is read again.** -/
theorem classify_text (lookup : Lookup) :
    classify lookup (Value.concrete c).text = some (.single (.concrete c.rounded)) := by
  cases c with
  | color c => exact classify_hex c lookup
  | number x =>
    obtain ⟨hx, hr⟩ := h
    have hn := numeral_write hx
    show classify lookup (Decimal.plain.write x) = some (.single (.concrete (.number x)))
    rw [← String.ofList_toList (s := Decimal.plain.write x)] at hr ⊢
    generalize (Decimal.plain.write x).toList = cs at hn hr ⊢
    simp only [classify, trimmed, String.toList_ofList, trim_numeral hn, aliasOf?_numeral hn, hr]

/-- **In a mode block a color is read again**, and a number is refused. -/
theorem classifyMode_text : classifyMode (Value.concrete c).text =
    c.color?.map fun c => .concrete (.color c.rounded) := by
  cases c with
  | color c => exact classifyMode_hex c
  | number x =>
    have hn := numeral_write h.1
    show classifyMode (Decimal.plain.write x) = none
    rw [← String.ofList_toList (s := Decimal.plain.write x)]
    generalize (Decimal.plain.write x).toList = cs at hn ⊢
    simp only [classifyMode, trimmed, String.toList_ofList, trim_numeral hn, aliasOf?_numeral hn,
      colorLiteral?, readColor?_numeral hn, Option.map_none]

/-- A value is written without blanks and without characters that end a statement. -/
theorem isPlain_text :
    ∀ d ∈ (Value.concrete c).text.toList, isPlain d = true ∧ isBlank d = false := by
  cases c with
  | color c =>
    intro d hd
    change d ∈ c.hex.toList at hd
    rw [c.toList_hex, List.mem_cons] at hd
    rcases hd with rfl | hd
    · decide
    · exact (isPlain_of_isNameLetter (c.isNameLetter_hexDigits d hd)).imp_right And.left
  | number x => exact fun d hd => isPlain_of_isNumeral (numeral_write h.1 d hd)

end Text

end DesignVars
