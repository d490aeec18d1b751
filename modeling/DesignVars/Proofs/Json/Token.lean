import DesignVars.Json.Basic
import DesignVars.Json.Token
import Mathlib.Tactic.ByContra
import Mathlib.Tactic.SplitIfs

/-!
# Tokens of written texts

* `readString?_quote`: an escaped text reads back as it was;
* `Stops`, `takeLiteral?_append`: a number ends where no character of a number follows;
* **`tokens?_quote`**, **`tokens?_number`**: a written string, and a written number, is one token,
  and the tokens of what follows come after it.
-/

namespace DesignVars.Json

open Text Decimal

/-! ## Strings -/

theorem hexValue?_hexDigit (n : Nat) : hexValue? (hexDigit n) = some (n % 16) := by
  have h : ∀ d < 16, hexValue? (Nat.digitChar d) = some d := by decide
  exact h (n % 16) (Nat.mod_lt n (by omega))

theorem takeUnit?_control {n : Nat} (h : n < 0x20) (cs : List Char) :
    takeUnit? ('0' :: '0' :: hexDigit (n / 16) :: hexDigit n :: cs) = some (n, cs) := by
  have h0 : hexValue? '0' = some 0 := by decide
  have hn : 16 * (n / 16 % 16) + n % 16 = n := by omega
  simp [takeUnit?, h0, hexValue?_hexDigit, hn]

theorem takeEscape?_control {c : Char} (h : c.toNat < 0x20) (cs : List Char) :
    takeEscape? ('u' :: '0' :: '0' :: hexDigit (c.toNat / 16) :: hexDigit c.toNat :: cs) =
      some (some c, cs) := by
  have hl : isLead c.toNat = false := by
    simp only [isLead, Bool.and_eq_false_iff]; left; simp; omega
  have ht : isTrail c.toNat = false := by
    simp only [isTrail, Bool.and_eq_false_iff]; left; simp; omega
  simp [takeEscape?, takeUnit?_control h, hl, ht]

theorem readString?_escaped {c : Option Char} {cs rest : List Char}
    (h : takeEscape? cs = some (c, rest)) :
    readString? ('\\' :: cs) = (readString? rest).map fun s => (consChar c s.1, s.2) := by
  rw [readString?.eq_def]
  simp only
  split
  · rename_i he
    rw [h] at he
    cases he
  · rename_i he
    rw [h] at he
    cases he
    rfl

theorem readString?_plain {c : Char} (hq : c ≠ '"') (hb : c ≠ '\\') (hc : ¬ c.toNat < 0x20)
    (cs : List Char) :
    readString? (c :: cs) = (readString? cs).map fun s => (consChar (some c) s.1, s.2) := by
  rw [readString?.eq_def]
  split
  · simp_all
  · simp_all
  · simp_all
  · rename_i he
    cases he
    rw [if_neg hc]

theorem readString?_escape (c : Char) (cs : List Char) : readString? (escape c ++ cs) =
    (readString? cs).map fun s => (consChar (some c) s.1, s.2) := by
  unfold escape
  split
  iterate 7 exact readString?_escaped rfl
  rename_i hq hb _ _ _ _ _
  split_ifs with hc
  · exact readString?_escaped (takeEscape?_control hc cs)
  · exact readString?_plain hq hb hc cs

theorem readString?_quote (s rest : List Char) :
    readString? (s.flatMap escape ++ '"' :: rest) = some (some s, rest) := by
  induction s with
  | nil =>
    rw [List.flatMap_nil, List.nil_append, readString?.eq_def]
    rfl
  | cons c s ih =>
    rw [List.flatMap_cons, List.append_assoc, readString?_escape, ih]
    rfl

/-! ## Numbers -/

/-- No character at the front belongs to a number. -/
def Stops (cs : List Char) : Prop :=
  ∀ c ∈ cs.head?, isDigit c = false ∧ c ≠ '.' ∧ c ≠ 'e' ∧ c ≠ 'E'

section Literals

variable {cs ds r rest : List Char}

theorem takeDigits_append (h : Stops rest) (cs : List Char) :
    takeDigits (cs ++ rest) = ((takeDigits cs).1, (takeDigits cs).2 ++ rest) := by
  unfold takeDigits
  induction cs with
  | nil =>
    cases rest with
    | nil => rfl
    | cons c rest => simp [(h c rfl).1]
  | cons c cs ih =>
    rw [Prod.mk.injEq] at ih
    by_cases hc : isDigit c = true
    · simp [hc, ih.1, ih.2]
    · simp [hc]

theorem takeWhole?_append (h : Stops rest) (hw : takeWhole? cs = some (ds, r)) :
    takeWhole? (cs ++ rest) = some (ds, r ++ rest) := by
  unfold takeWhole? at hw
  split at hw
  · cases hw
    rfl
  · rename_i hz
    rw [takeWhole?.eq_def, takeDigits_append h]
    simp only [Option.ite_none_left_eq_some, Bool.not_eq_true, Option.some.injEq,
      Prod.mk.injEq] at hw
    obtain ⟨hne, rfl, rfl⟩ := hw
    split
    · rename_i r' he
      cases cs with
      | nil => simp [takeDigits] at hne
      | cons c cs =>
        rw [List.cons_append, List.cons.injEq] at he
        rw [he.1] at hz
        exact absurd rfl (hz cs)
    · simp [hne]

theorem takeFraction?_append (h : Stops rest) (hf : takeFraction? cs = some (ds, r)) :
    takeFraction? (cs ++ rest) = some (ds, r ++ rest) := by
  cases cs with
  | nil =>
    cases hf
    cases rest with
    | nil => rfl
    | cons c rest =>
      rw [List.nil_append, takeFraction?.eq_def]
      split
      · rename_i he
        rw [List.cons.injEq] at he
        exact absurd he.1 (h c rfl).2.1
      · rfl
  | cons c cs =>
    by_cases hc : c = '.'
    · subst hc
      simp only [takeFraction?, Option.ite_none_left_eq_some, Bool.not_eq_true, Option.some.injEq,
        Prod.mk.injEq] at hf
      obtain ⟨hne, rfl, rfl⟩ := hf
      simp [takeFraction?, takeDigits_append h, hne]
    · rw [takeFraction?.eq_2 _ (by simp [hc])] at hf
      cases hf
      exact takeFraction?.eq_2 _ (by simp [hc])

theorem takeSign_append (c : Char) (cs rest : List Char) :
    takeSign (c :: cs ++ rest) = ((takeSign (c :: cs)).1, (takeSign (c :: cs)).2 ++ rest) := by
  by_cases hm : c = '-'
  · subst hm
    rfl
  by_cases hp : c = '+'
  · subst hp
    rfl
  rw [List.cons_append, takeSign.eq_3 _ (by simp [hm]) (by simp [hp]),
    takeSign.eq_3 _ (by simp [hm]) (by simp [hp])]
  rfl

theorem takeExponent?_append {e : Option (Bool × List Char)} (h : Stops rest)
    (he : takeExponent? cs = some (e, r)) :
    takeExponent? (cs ++ rest) = some (e, r ++ rest) := by
  cases cs with
  | nil =>
    cases he
    cases rest with
    | nil => rfl
    | cons c rest => simp [takeExponent?, (h c rfl).2.2.1, (h c rfl).2.2.2]
  | cons c cs =>
    simp only [takeExponent?, List.cons_append] at he ⊢
    by_cases hc : (decide (c = 'e') || decide (c = 'E')) = true
    · rw [if_pos hc] at he ⊢
      cases cs with
      | nil => cases he
      | cons d cs =>
        simp only [Option.ite_none_left_eq_some, Option.some.injEq, Prod.mk.injEq] at he
        obtain ⟨hne, rfl, rfl⟩ := he
        rw [takeSign_append, takeDigits_append h, if_neg hne]
    · rw [if_neg hc] at he ⊢
      cases he
      rfl

/-- A literal ends where no character of a number follows. -/
theorem takeLiteral?_append {l : Literal} (h : Stops rest) (hl : takeLiteral? cs = some (l, r)) :
    takeLiteral? (cs ++ rest) = some (l, r ++ rest) := by
  cases cs with
  | nil => cases hl
  | cons c cs =>
    unfold takeLiteral? at hl ⊢
    simp only [Option.bind_eq_bind, Option.bind_eq_some_iff, Option.some.injEq,
      Prod.mk.injEq] at hl ⊢
    obtain ⟨⟨w, r₁⟩, hw, ⟨f, r₂⟩, hf, ⟨e, r₃⟩, he, rfl, rfl⟩ := hl
    refine ⟨(w, r₁ ++ rest), ?_, (f, r₂ ++ rest), takeFraction?_append h hf, (e, r₃ ++ rest),
      takeExponent?_append h he, ?_, rfl⟩
    all_goals by_cases hc : c = '-'
    · subst hc
      exact takeWhole?_append h hw
    · have hw' : takeWhole? (c :: cs) = some (w, r₁) := by simpa [hc] using hw
      simpa [hc] using takeWhole?_append h hw'
    · subst hc
      rfl
    · simp [hc]

theorem head_of_takeLiteral? {c : Char} {x : Literal × List Char}
    (h : takeLiteral? (c :: cs) = some x) : c = '-' ∨ isDigit c = true := by
  by_cases hc : c = '-'
  · exact .inl hc
  · right
    simp only [takeLiteral?, Option.bind_eq_bind, Option.bind_eq_some_iff] at h
    obtain ⟨y, hy, -⟩ := h
    have hw : takeWhole? (c :: cs) = some y := by simpa [hc] using hy
    unfold takeWhole? at hw
    split at hw
    · rename_i he
      rw [List.cons.injEq] at he
      rw [he.1]
      decide
    · by_contra hd
      simp [takeDigits, hd] at hw

end Literals

/-! ## Tokens -/

section Tokens

variable {c : Char} {cs rest : List Char}

theorem readToken?_number {l : Literal} (h : Stops rest)
    (hl : takeLiteral? (c :: cs) = some (l, [])) : readToken? c (cs ++ rest) =
      some (.scalar (.number (String.ofList (c :: cs))), rest) := by
  have hc := head_of_takeLiteral? hl
  have ha := takeLiteral?_append h hl
  have hlen : (cs ++ rest).length + 1 - rest.length = (c :: cs).length := by
    simp only [List.length_append, List.length_cons]
    omega
  unfold readToken?
  split
  iterate 10 exact absurd hc (by decide)
  rw [List.cons_append, List.nil_append] at ha
  simp only [ha, hlen]
  rw [← List.cons_append, List.take_left]

theorem tokens?_eq (cs : List Char) : tokens? cs =
    match cs.dropWhile isGap with
    | [] => some []
    | c :: rest => (readToken? c rest).bind fun x => (tokens? x.2).map (x.1 :: ·) := by
  rw [tokens?]
  split
  · rename_i he
    simp only [he]
  · rename_i he
    simp only [he]
    split <;> rename_i hr <;> simp [hr]

theorem tokens?_nil : tokens? [] = some [] := by
  rw [tokens?_eq]
  rfl

theorem tokens?_gaps {gaps : List Char} (h : ∀ c ∈ gaps, isGap c = true) (cs : List Char) :
    tokens? (gaps ++ cs) = tokens? cs := by
  rw [tokens?_eq, List.dropWhile_append_of_pos h, ← tokens?_eq]

theorem tokens?_cons {t : Token} (hc : isGap c = false)
    (h : readToken? c cs = some (t, rest)) : tokens? (c :: cs) = (tokens? rest).map (t :: ·) := by
  rw [tokens?_eq, List.dropWhile_cons_of_neg (by simp [hc])]
  simp only [h, Option.bind_some]

theorem tokens?_quote (s : String) (rest : List Char) : tokens? ((quote s).toList ++ rest) =
    (tokens? rest).map (.scalar (.string (some s)) :: ·) := by
  have hq : (quote s).toList ++ rest = '"' :: (s.toList.flatMap escape ++ '"' :: rest) := by
    simp [quote]
  rw [hq]
  refine tokens?_cons (by decide) ?_
  simp [readToken?, readString?_quote]

theorem tokens?_number {literal : String} {l : Literal} (h : Stops rest)
    (hl : takeLiteral? literal.toList = some (l, [])) : tokens? (literal.toList ++ rest) =
      (tokens? rest).map (.scalar (.number literal) :: ·) := by
  cases hcs : literal.toList with
  | nil =>
    rw [hcs] at hl
    cases hl
  | cons c cs =>
    rw [hcs] at hl
    have hg : isGap c = false := by
      by_contra hg
      have hc := head_of_takeLiteral? hl
      simp only [isGap, Bool.not_eq_false, Bool.or_eq_true, beq_iff_eq] at hg
      rcases hg with ((rfl | rfl) | rfl) | rfl <;> exact absurd hc (by decide)
    have ht := tokens?_cons hg (readToken?_number h hl)
    rw [← hcs, String.ofList_toList] at ht
    exact ht

end Tokens

end DesignVars.Json
