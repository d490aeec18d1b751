import DesignVars.Declaration
import Mathlib.Tactic.SplitIfs

/-!
# Characters and byte positions

A position counts the bytes of a text in UTF-8, so it may lie inside a character.

* `of_ascii`: what holds of each of the 128 characters holds of every ASCII character;
* `toNat_lt_of_isLetter`, `toNat_lt_of_isDigit`, `toNat_lt_of_isNameLetter`: letters, digits and
  the characters of names are among them;
* `bytes`, `byteSize`: the bytes of a text, and their number;
* `from?`, `slice?`: the text behind a position and between two; there is none unless they are
  boundaries of characters;
* **`from?_eq_some_iff`**, **`slice?_eq_some_iff`**: so a position is cut at exactly if the
  characters before it have that many bytes;
* `byteAt?`: a single byte; those of a character beyond ASCII are none of ASCII
  (**`byteAt?_cases`**).
-/

namespace DesignVars.Text

/-! ## ASCII -/

theorem of_ascii {Q : Char → Prop} (h : ∀ n < 128, Q (Char.ofNat n)) {c : Char}
    (hc : c.toNat < 128) : Q c := by
  have := h c.toNat hc
  rwa [Char.ofNat_toNat] at this

variable {c : Char}

theorem toNat_lt_of_isDigit (h : isDigit c = true) : c.toNat < 128 := by
  simp only [isDigit, Bool.and_eq_true, decide_eq_true_eq] at h
  have h9 : c.toNat ≤ 57 := UInt32.le_iff_toNat_le.1 h.2
  omega

theorem toNat_lt_of_isLetter (h : isLetter c = true) : c.toNat < 128 := by
  simp only [isLetter, Bool.or_eq_true, Bool.and_eq_true, decide_eq_true_eq] at h
  rcases h with h | h
  · have hz : c.toNat ≤ 122 := UInt32.le_iff_toNat_le.1 h.2
    omega
  · have hZ : c.toNat ≤ 90 := UInt32.le_iff_toNat_le.1 h.2
    omega

theorem toNat_lt_of_isNameLetter (h : isNameLetter c = true) : c.toNat < 128 := by
  simp only [isNameLetter, Bool.or_eq_true, beq_iff_eq] at h
  rcases h with ((h | h) | rfl) | rfl
  · exact toNat_lt_of_isLetter h
  · exact toNat_lt_of_isDigit h
  · decide
  · decide

theorem toNat_lt_of_toLower (h : c.toLower.toNat < 128) : c.toNat < 128 := by
  unfold Char.toLower at h
  split at h
  · rename_i hc
    have hZ : c.toNat ≤ 90 := UInt32.le_iff_toNat_le.1 hc.2
    omega
  · exact h

/-! ## Bytes -/

/-- The bytes of a text in UTF-8. -/
def bytes (cs : List Char) : List UInt8 := cs.flatMap String.utf8EncodeChar

def byteSize (cs : List Char) : Nat := (bytes cs).length

@[simp] theorem byteSize_nil : byteSize [] = 0 := rfl

@[simp] theorem byteSize_cons (c : Char) (cs : List Char) :
    byteSize (c :: cs) = c.utf8Size + byteSize cs := by
  rw [byteSize, bytes, List.flatMap_cons, List.length_append, String.length_utf8EncodeChar]
  rfl

@[simp] theorem byteSize_append (cs ds : List Char) :
    byteSize (cs ++ ds) = byteSize cs + byteSize ds := by
  rw [byteSize, bytes, List.flatMap_append, List.length_append]
  rfl

theorem length_le_byteSize (cs : List Char) : cs.length ≤ byteSize cs := by
  induction cs with
  | nil => exact Nat.le_refl 0
  | cons c cs ih =>
    have := c.utf8Size_pos
    rw [List.length_cons, byteSize_cons]
    omega

/-- The text from a position on; none inside a character and behind the end. -/
def from? : List Char → Nat → Option (List Char)
  | cs, 0 => some cs
  | [], _ + 1 => none
  | c :: cs, i + 1 => if c.utf8Size ≤ i + 1 then from? cs (i + 1 - c.utf8Size) else none
termination_by cs => cs.length

theorem from?_eq_some_iff {cs r : List Char} {i : Nat} :
    from? cs i = some r ↔ ∃ before, cs = before ++ r ∧ byteSize before = i := by
  fun_induction from? cs i with
  | case1 cs =>
    constructor
    · rintro ⟨⟩
      exact ⟨[], rfl, rfl⟩
    · rintro ⟨before, rfl, h⟩
      cases before with
      | nil => rfl
      | cons c before =>
        have := c.utf8Size_pos
        rw [byteSize_cons] at h
        omega
  | case2 i =>
    constructor
    · nofun
    · rintro ⟨before, he, h⟩
      obtain ⟨rfl, -⟩ := List.append_eq_nil_iff.1 he.symm
      cases h
  | case3 c cs i hc ih =>
    rw [ih]
    constructor
    · rintro ⟨before, rfl, h⟩
      exact ⟨c :: before, rfl, by rw [byteSize_cons, h, Nat.add_sub_cancel' hc]⟩
    · rintro ⟨before, he, h⟩
      cases before with
      | nil => cases h
      | cons d before =>
        obtain ⟨rfl, rfl⟩ := List.cons.inj he
        rw [byteSize_cons] at h
        exact ⟨before, rfl, by omega⟩
  | case4 c cs i hc =>
    constructor
    · nofun
    · rintro ⟨before, he, h⟩
      cases before with
      | nil => cases h
      | cons d before =>
        obtain ⟨rfl, -⟩ := List.cons.inj he
        rw [byteSize_cons] at h
        omega

section Positions

variable {cs m r r' : List Char} {i j : Nat}

theorem from?_append (h : from? cs i = some (m ++ r)) : from? cs (i + byteSize m) = some r := by
  obtain ⟨before, rfl, rfl⟩ := from?_eq_some_iff.1 h
  exact from?_eq_some_iff.2 ⟨before ++ m, (List.append_assoc ..).symm, byteSize_append before m⟩

theorem from?_next {c : Char} (h : from? cs i = some (c :: r)) :
    from? cs (i + c.utf8Size) = some r := by
  have hr := from?_append (m := [c]) h
  rwa [byteSize_cons, byteSize_nil] at hr

theorem add_byteSize_of_from? (h : from? cs i = some r) : i + byteSize r = byteSize cs := by
  obtain ⟨before, rfl, rfl⟩ := from?_eq_some_iff.1 h
  exact (byteSize_append before r).symm

theorem not_lt_byteSize (h : from? cs i = some []) : ¬i < byteSize cs := by
  have hi := add_byteSize_of_from? h
  rw [byteSize_nil] at hi
  omega

theorem lt_byteSize {c : Char} (h : from? cs i = some (c :: r)) : i < byteSize cs := by
  have hi := add_byteSize_of_from? h
  have hc := c.utf8Size_pos
  rw [byteSize_cons] at hi
  omega

/-- Positions move with what is left, at least one byte for a character. -/
theorem add_length_le_of_from? (h : from? cs i = some r) (h' : from? cs j = some r')
    (hs : r' <:+ r) : i + r.length ≤ j + r'.length := by
  obtain ⟨m, rfl⟩ := hs
  have hi := add_byteSize_of_from? h
  have hj := add_byteSize_of_from? h'
  have hm := length_le_byteSize m
  rw [byteSize_append] at hi
  rw [List.length_append]
  omega

end Positions

/-- The text between two positions, of which the first may not be behind the second. -/
def slice? (cs : List Char) (i j : Nat) : Option (List Char) :=
  if i ≤ j then
    (from? cs i).bind fun r => (from? r (j - i)).map fun s => r.take (r.length - s.length)
  else none

theorem slice?_eq_some_iff {cs m : List Char} {i j : Nat} : slice? cs i j = some m ↔
    ∃ before after, cs = before ++ (m ++ after) ∧ byteSize before = i ∧ i + byteSize m = j := by
  unfold slice?
  constructor
  · intro h
    split_ifs at h with hij
    obtain ⟨r, hr, h⟩ := Option.bind_eq_some_iff.1 h
    obtain ⟨after, hs, rfl⟩ := Option.map_eq_some_iff.1 h
    obtain ⟨before, rfl, hb⟩ := from?_eq_some_iff.1 hr
    obtain ⟨m, rfl, hm⟩ := from?_eq_some_iff.1 hs
    rw [List.length_append, Nat.add_sub_cancel, List.take_left]
    exact ⟨before, after, rfl, hb, by omega⟩
  · rintro ⟨before, after, rfl, rfl, rfl⟩
    have hr : from? (before ++ (m ++ after)) (byteSize before) = some (m ++ after) :=
      from?_eq_some_iff.2 ⟨before, rfl, rfl⟩
    have hs : from? (m ++ after) (byteSize m) = some after :=
      from?_eq_some_iff.2 ⟨m, rfl, rfl⟩
    rw [if_pos (Nat.le_add_right _ _), hr, Option.bind_some, Nat.add_sub_cancel_left, hs,
      Option.map_some, List.length_append, Nat.add_sub_cancel, List.take_left]

/-! ## Single bytes -/

/-- The byte at a position, as the character with that number. -/
def byteAt? (cs : List Char) (i : Nat) : Option Char := (bytes cs)[i]?.map Char.ofUInt8

theorem toNat_ofUInt8 (n : Nat) : (Char.ofUInt8 (UInt8.ofNat n)).toNat = n % 256 := by
  show (UInt8.ofNat n).toUInt32.toNat = n % 256
  simp

theorem utf8Size_eq_one {c : Char} (h : c.toNat < 128) : c.utf8Size = 1 :=
  Char.utf8Size_eq_one_iff.2 (UInt32.le_iff_toNat_le.2 (Nat.le_of_lt_succ h))

theorem utf8EncodeChar_ascii {c : Char} (h : c.toNat < 128) :
    (String.utf8EncodeChar c).map Char.ofUInt8 = [c] := by
  have hle : c.val.toNat ≤ 127 := Nat.le_of_lt_succ h
  have hc : Char.ofUInt8 (UInt8.ofNat c.val.toNat) = c := by
    refine Char.ext (UInt32.toNat_inj.1 ?_)
    exact (toNat_ofUInt8 _).trans (Nat.mod_eq_of_lt (by omega))
  simp only [String.utf8EncodeChar, if_pos hle, List.map_cons, List.map_nil, hc]

theorem utf8EncodeChar_wide {c : Char} (h : 128 ≤ c.toNat) :
    ∀ b ∈ (String.utf8EncodeChar c).map Char.ofUInt8, 128 ≤ b.toNat := by
  have hlt : ¬c.val.toNat ≤ 127 := Nat.not_le_of_lt h
  simp only [String.utf8EncodeChar, if_neg hlt]
  split_ifs <;> simp only [List.map_cons, List.map_nil, List.forall_mem_cons, toNat_ofUInt8]
  · exact ⟨by omega, by omega, nofun⟩
  · exact ⟨by omega, by omega, by omega, nofun⟩
  · exact ⟨by omega, by omega, by omega, by omega, nofun⟩

section Bytes

variable {cs r : List Char} {c : Char} {i : Nat} (h : from? cs i = some (c :: r))

include h

theorem byteAt?_add {k : Nat} (hk : k < c.utf8Size) :
    byteAt? cs (i + k) = ((String.utf8EncodeChar c).map Char.ofUInt8)[k]? := by
  obtain ⟨before, rfl, rfl⟩ := from?_eq_some_iff.1 h
  have hb : bytes (before ++ c :: r) =
      bytes before ++ (String.utf8EncodeChar c ++ bytes r) := by
    rw [bytes, List.flatMap_append, List.flatMap_cons]
    rfl
  rw [byteAt?, hb, byteSize, List.getElem?_append_right (Nat.le_add_right _ _),
    Nat.add_sub_cancel_left, List.getElem?_append_left (by rwa [String.length_utf8EncodeChar]),
    List.getElem?_map]

/-- **The bytes of a character**: a single one that is the character, or none of ASCII. -/
theorem byteAt?_cases :
    (c.toNat < 128 ∧ c.utf8Size = 1 ∧ byteAt? cs i = some c) ∨
      (128 ≤ c.toNat ∧ ∀ k < c.utf8Size, ∃ b, byteAt? cs (i + k) = some b ∧ 128 ≤ b.toNat) := by
  by_cases hc : c.toNat < 128
  · have hbyte := byteAt?_add h c.utf8Size_pos
    rw [utf8EncodeChar_ascii hc] at hbyte
    exact .inl ⟨hc, utf8Size_eq_one hc, hbyte⟩
  · refine .inr ⟨Nat.le_of_not_lt hc, fun k hk => ?_⟩
    have hlen : k < ((String.utf8EncodeChar c).map Char.ofUInt8).length := by
      rwa [List.length_map, String.length_utf8EncodeChar]
    refine ⟨_, (byteAt?_add h hk).trans (List.getElem?_eq_getElem hlen), ?_⟩
    exact utf8EncodeChar_wide (Nat.le_of_not_lt hc) _ (List.getElem_mem hlen)

theorem byteAt?_ascii (hc : c.toNat < 128) :
    byteAt? cs i = some c ∧ from? cs (i + 1) = some r := by
  have hr := from?_next h
  rw [utf8Size_eq_one hc] at hr
  rcases byteAt?_cases h with ⟨-, -, hb⟩ | ⟨hwide, -⟩
  · exact ⟨hb, hr⟩
  · omega

theorem byteAt?_first : ∃ b, byteAt? cs i = some b ∧ (b = c ∨ 128 ≤ b.toNat) := by
  rcases byteAt?_cases h with ⟨-, -, hb⟩ | ⟨-, hb⟩
  · exact ⟨c, hb, .inl rfl⟩
  · obtain ⟨b, hb, hwide⟩ := hb 0 c.utf8Size_pos
    exact ⟨b, hb, .inr hwide⟩

end Bytes

end DesignVars.Text
