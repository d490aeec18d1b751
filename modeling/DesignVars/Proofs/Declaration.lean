import DesignVars.Declaration
import Mathlib.Data.List.TakeWhile
import Mathlib.Tactic.SplitIfs

/-!
# Declarations

* `isPlain`: characters that neither end a statement nor change how the next ones are read;
* `trim_eq_self`, `trim_blank_cons`, `trim_trim`, `exists_blanks_trim`: texts without outer blanks;
* `Scanner.declarations_eq`: the declarations of a scan, one step at a time;
* **`Scanner.forall_declarations`**: what all statements give all declarations have, such as a valid
  name (`declaration?_eq_some`).
-/

namespace DesignVars

open Text Css

/-! ## Characters -/

/-- A character that is part of a statement in which nothing is quoted, nested or commented. -/
def isPlain (c : Char) : Bool := c ∉ ['"', '\'', ';', '{', '}', '(', ')', '/']

theorem isPlain_of_isNameLetter {c : Char} (h : isNameLetter c = true) :
    isPlain c = true ∧ isBlank c = false ∧ c ≠ ':' := by
  refine ⟨?_, ?_, ?_⟩
  · simp only [isPlain, decide_eq_true_eq, List.mem_cons, List.not_mem_nil, or_false]
    rintro (rfl | rfl | rfl | rfl | rfl | rfl | rfl | rfl) <;> exact absurd h (by decide)
  · have hr : (48 ≤ c.toNat ∧ c.toNat ≤ 57) ∨ (65 ≤ c.toNat ∧ c.toNat ≤ 122) ∨ c = '-' := by
      simp only [isNameLetter, isLetter, isDigit, Bool.or_eq_true, Bool.and_eq_true,
        decide_eq_true_eq, Char.le_def, UInt32.le_iff_toNat_le, beq_iff_eq] at h
      rcases h with (((h | h) | h) | rfl) | rfl
      · change 97 ≤ c.toNat ∧ c.toNat ≤ 122 at h
        omega
      · change 65 ≤ c.toNat ∧ c.toNat ≤ 90 at h
        omega
      · exact .inl h
      · exact .inr (.inr rfl)
      · decide
    rcases hr with hr | hr | rfl
    · simp [isBlank]
      omega
    · simp [isBlank]
      omega
    · decide
  · rintro rfl
    exact absurd h (by decide)

theorem isNameLetter_of_mem_toList {name : String} (hn : isValidName name = true) :
    ∀ c ∈ name.toList, isNameLetter c = true :=
  List.all_eq_true.1 (Bool.and_eq_true_iff.1 hn).2

theorem cut?_append {sep : Char} {cs : List Char} (h : ∀ c ∈ cs, c ≠ sep) (rest : List Char) :
    cut? sep (cs ++ sep :: rest) = some (cs, rest) := by
  induction cs with
  | nil => simp [cut?]
  | cons c cs ih =>
    obtain ⟨hc, h⟩ := List.forall_mem_cons.1 h
    rw [List.cons_append, cut?, if_neg hc, ih h]
    rfl

theorem eq_append_of_cut? {sep : Char} {cs front behind : List Char}
    (h : cut? sep cs = some (front, behind)) : cs = front ++ sep :: behind := by
  fun_induction cut? sep cs generalizing front with
  | case1 => cases h
  | case2 cs =>
    cases h
    rfl
  | case3 c cs hc ih =>
    obtain ⟨⟨front, _⟩, hcut, hp⟩ := Option.map_eq_some_iff.1 h
    cases hp
    rw [ih hcut, List.cons_append]

/-! ## Outer blanks -/

theorem trim_eq_self {cs : List Char} (hh : ∀ c ∈ cs.head?, isBlank c = false)
    (hl : ∀ c ∈ cs.getLast?, isBlank c = false) : trim cs = cs := by
  have hd : ∀ ds : List Char, (∀ c ∈ ds.head?, isBlank c = false) → ds.dropWhile isBlank = ds := by
    intro ds h
    cases ds with
    | nil => rfl
    | cons c ds => rw [List.dropWhile_cons_of_neg (by simp [h c rfl])]
  rw [trim, trimStart, trimEnd, hd cs hh, hd cs.reverse (by simpa using hl), List.reverse_reverse]

theorem trim_of_not_blank {cs : List Char} (h : ∀ c ∈ cs, isBlank c = false) : trim cs = cs :=
  trim_eq_self (fun c hc => h c (List.mem_of_mem_head? hc))
    fun c hc => h c (List.mem_of_mem_getLast? hc)

theorem trim_blank_cons {b : Char} (hb : isBlank b = true) (cs : List Char) :
    trim (b :: cs) = trim cs := by
  rw [trim, trimStart, List.dropWhile_cons_of_pos hb]
  rfl

theorem trim_trim (cs : List Char) : trim (trim cs) = trim cs := by
  have hp : trim cs <+: trimStart cs := by
    have hs := List.dropWhile_suffix (l := (trimStart cs).reverse) isBlank
    simpa [trim, trimEnd] using List.reverse_prefix.2 hs
  refine trim_eq_self (fun c hc => ?_) fun c hc => ?_
  · have hh := List.head?_dropWhile_not isBlank cs
    obtain ⟨rest, hr⟩ := hp
    have hd : (cs.dropWhile isBlank).head? = some c := by
      rw [← trimStart, ← hr, List.head?_append, Option.mem_def.1 hc, Option.some_or]
    rw [hd] at hh
    simpa using hh
  · have hh := List.head?_dropWhile_not isBlank (trimStart cs).reverse
    rw [trim, trimEnd, Option.mem_def, List.getLast?_reverse] at hc
    rw [hc] at hh
    simpa using hh

theorem length_trimEnd_le (cs : List Char) : (trimEnd cs).length ≤ cs.length := by
  rw [trimEnd, List.length_reverse, ← cs.length_reverse]
  exact (List.dropWhile_suffix isBlank).length_le

theorem length_trim_le (cs : List Char) : (trim cs).length ≤ cs.length :=
  Nat.le_trans (length_trimEnd_le _) (List.dropWhile_suffix isBlank).length_le

theorem exists_blanks_trim (cs : List Char) : ∃ before after, cs = before ++ trim cs ++ after ∧
    (∀ c ∈ before, isBlank c = true) ∧ ∀ c ∈ after, isBlank c = true := by
  have hstart : cs = cs.takeWhile isBlank ++ trimStart cs := List.takeWhile_append_dropWhile.symm
  have hend : trimStart cs = trim cs ++ ((trimStart cs).reverse.takeWhile isBlank).reverse := by
    rw [trim, trimEnd, ← List.reverse_append, List.takeWhile_append_dropWhile,
      List.reverse_reverse]
  refine ⟨cs.takeWhile isBlank, ((trimStart cs).reverse.takeWhile isBlank).reverse, ?_,
    fun c hc => List.mem_takeWhile_imp hc,
    fun c hc => List.mem_takeWhile_imp (List.mem_reverse.1 hc)⟩
  rw [List.append_assoc, ← hend]
  exact hstart

theorem isAllBlank_iff_trim {cs : List Char} : isAllBlank cs = true ↔ trim cs = [] := by
  rw [isAllBlank, List.all_eq_true]
  constructor
  · intro h
    have hd : trimStart cs = [] := List.dropWhile_eq_nil_iff.2 h
    rw [trim, hd]
    rfl
  · intro h
    obtain ⟨before, after, he, hb, ha⟩ := exists_blanks_trim cs
    rw [h, List.append_nil] at he
    intro c hc
    rw [he] at hc
    exact (List.mem_append.1 hc).elim (hb c) (ha c)

/-! ## Scans -/

theorem Scanner.declarations_eq (s : Scanner) : s.declarations =
    s.step.elim [] fun x => x.1.toList ++ x.2.declarations := by
  rw [declarations]
  split <;> rename_i h <;> rw [h] <;> rfl

theorem Scanner.declarations_nil (preludes : List String) :
    (Scanner.mk [] preludes).declarations = [] := by
  rw [declarations_eq, step, skipTrivia]
  rfl

/-! ## What all declarations have -/

/-- A statement makes a declaration of a valid name and a value without outer blanks. -/
theorem declaration?_eq_some {preludes : List String} {text : List Char} {d : Declaration}
    (h : declaration? preludes text = some d) :
    isValidName d.name = true ∧ trimmed d.value = d.value := by
  unfold declaration? at h
  split at h
  · cases h
  split at h
  · cases h
  simp only at h
  split_ifs at h with hn
  cases h
  refine ⟨hn, ?_⟩
  simp only [trimmed, String.toList_ofList]
  rw [trim_trim]

section All

variable {Q : Declaration → Prop}
  (hQ : ∀ preludes text d, declaration? preludes text = some d → ∀ c, Q { d with comment := c })

include hQ

theorem Scanner.forall_step {s s' : Scanner} {d : Declaration}
    (h : s.step = some (some d, s')) : Q d := by
  have hq : ∀ preludes text, declaration? preludes text = some d → Q d := fun _ _ hd =>
    hQ _ _ d hd d.comment
  unfold step at h
  split at h
  · cases h
  rcases hr : readStatement 0 _ with ⟨text, ending, after⟩
  rw [hr] at h
  cases ending <;> simp only at h
  · split at h
    · rename_i e he
      cases h
      exact hQ _ _ e he _
    · cases h
  · cases h
  · split_ifs at h
    · cases h
    · exact hq _ _ (Prod.mk.inj (Option.some.inj h)).1
  · exact hq _ _ (Prod.mk.inj (Option.some.inj h)).1

/-- What holds of every declaration that a statement makes, with any comment, holds of every
declaration of a scan. -/
theorem Scanner.forall_declarations (s : Scanner) : ∀ d ∈ s.declarations, Q d := by
  fun_induction Scanner.declarations s with
  | case1 => exact nofun
  | case2 s found s' hs ih =>
    intro d hd
    rcases List.mem_append.1 hd with hd | hd
    · rw [Option.mem_toList.1 hd] at hs
      exact forall_step hQ hs
    · exact ih d hd

end All

end DesignVars
