import DesignVars.Proofs.Clean

/-!
# Tokens of a text

* `readName_append`, `readQuoted_append`: a name is read up to what cannot be part of it, and a
  string up to its quote;
* `tokens_cons`: the first token and those behind it;
* `tokens_hash`: a number sign and name characters are one token;
* `readToken_cases`: what the first token can be;
* **`tokens_letters`**: names and strings have no more characters than they are written with.
-/

namespace DesignVars.Css

open Text

/-! ## Names and strings -/

theorem isNameChar_of_isNameLetter {c : Char} (h : isNameLetter c = true) :
    isNameChar c = true ∧ c ≠ '\x00' := by
  constructor
  · simp only [isNameLetter, Bool.or_eq_true] at h
    rcases h with ((h | h) | h) | h <;> simp [isNameChar, startsName, h]
  · rintro rfl
    exact absurd h (by decide)

section Letters

variable {cs : List Char} (h : ∀ c ∈ cs, isNameLetter c = true)

include h

theorem readName_append {rest : List Char}
    (hr : ∀ c ∈ rest.head?, isNameChar c = false ∧ c ≠ '\\') :
    readName (cs ++ rest) = (cs, rest) := by
  induction cs with
  | nil =>
    cases rest with
    | nil => rw [List.nil_append, readName]
    | cons c rest =>
      obtain ⟨hc, hb⟩ := hr c rfl
      rw [List.nil_append, readName, if_neg hb, hc]
      rfl
  | cons c cs ih =>
    obtain ⟨hc, h⟩ := List.forall_mem_cons.1 h
    obtain ⟨hn, h0⟩ := isNameChar_of_isNameLetter hc
    have hb : c ≠ '\\' := by
      rintro rfl
      exact absurd hc (by decide)
    rw [List.cons_append, readName, if_neg hb, if_pos hn, ih h]
    simp only [h0, if_false]

end Letters

/-- Characters that stand for themselves between double quotes. -/
def isQuotable (c : Char) : Bool := c ∉ ['"', '\\', '\x00'] && !isNewline c

theorem isQuotable_of_isNameLetter {c : Char} (h : isNameLetter c = true) :
    isQuotable c = true := by
  simp only [isQuotable, isNewline, Bool.and_eq_true, decide_eq_true_eq, List.mem_cons,
    List.not_mem_nil, or_false, Bool.not_eq_true', Bool.or_eq_false_iff, beq_eq_false_iff_ne]
  refine ⟨?_, ⟨?_, ?_⟩, ?_⟩
  · rintro (rfl | rfl | rfl) <;> exact absurd h (by decide)
  all_goals
    rintro rfl
    exact absurd h (by decide)

theorem readQuoted_append {cs : List Char} (h : ∀ c ∈ cs, isQuotable c = true)
    (rest : List Char) : readQuoted '"' (cs ++ '"' :: rest) = (cs, rest, true) := by
  induction cs with
  | nil => rw [List.nil_append, readQuoted, if_pos rfl]
  | cons c cs ih =>
    obtain ⟨hc, h⟩ := List.forall_mem_cons.1 h
    simp only [isQuotable, Bool.and_eq_true, decide_eq_true_eq, List.mem_cons, List.not_mem_nil,
      or_false, not_or, Bool.not_eq_true'] at hc
    obtain ⟨⟨hq, hb, h0⟩, hl⟩ := hc
    rw [List.cons_append, readQuoted, if_neg hq, hl, if_neg Bool.false_ne_true, if_neg hb, ih h]
    simp only [h0, if_false]

/-! ## Tokens -/

theorem tokens_nil : tokens [] = [] := by
  rw [tokens, skipTrivia]

theorem tokens_cons {c : Char} (hc : isSpace c = false) (hs : c ≠ '/' ∧ c ≠ '*') (r : List Char) :
    tokens (c :: r) = (readToken c r).1 :: tokens (readToken c r).2 := by
  have hf : skipTrivia (c :: r) = c :: r := skipTrivia_clean (.nil : Clean false []) hc hs r
  rw [tokens]
  split
  · rename_i he
    rw [hf] at he
    cases he
  · rename_i d t he
    rw [hf] at he
    cases he
    rfl

theorem atNumber_eq_false {c : Char} (hd : isDigit c = false) (hc : c ∉ ['.', '+', '-'])
    (r : List Char) : atNumber (c :: r) = false := by
  simp only [List.mem_cons, List.not_mem_nil, or_false, not_or] at hc
  rcases r with _ | ⟨d, _ | ⟨e, r⟩⟩ <;> simp [atNumber, hd, hc]

theorem tokens_hash {cs : List Char} (hne : cs ≠ []) (h : ∀ c ∈ cs, isNameLetter c = true) :
    tokens ('#' :: cs) = [.hash (String.ofList cs)] := by
  have hn : readName cs = (cs, []) := by
    have hr : readName (cs ++ []) = (cs, []) := readName_append h nofun
    rwa [List.append_nil] at hr
  have hstart : (atName cs || cs.head?.any fun d => isDigit d || d == '-') = true := by
    obtain ⟨d, ds, rfl⟩ := List.exists_cons_of_ne_nil hne
    have hd := h d List.mem_cons_self
    simp only [isNameLetter, Bool.or_eq_true, beq_iff_eq] at hd
    rcases hd with ((hd | hd) | rfl) | rfl
    · have hl : atName (d :: ds) = startsName d := by
        refine atName.eq_5 d ds ?_ ?_ <;> rintro rfl <;> exact absurd hd (by decide)
      simp [hl, startsName, hd]
    · simp [hd]
    · simp
    · rfl
  have ht : readToken '#' cs = (.hash (String.ofList cs), []) := by
    rw [readToken, atNumber_eq_false (by decide) (by decide), hstart, hn]
    rfl
  rw [tokens_cons rfl (by decide), ht, tokens_nil]

/-! ## What a token can be -/

theorem readNumeric_cases (cs : List Char) :
    (∃ x b, (readNumeric cs).1 = .number x b) ∨ (∃ x b, (readNumeric cs).1 = .percentage x b) ∨
      ∃ x b u, (readNumeric cs).1 = .dimension x b u := by
  simp only [readNumeric]
  split
  · exact .inr (.inl ⟨_, _, rfl⟩)
  · split_ifs
    · exact .inr (.inr ⟨_, _, _, rfl⟩)
    · exact .inl ⟨_, _, rfl⟩

theorem readIdentLike_cases (cs : List Char) :
    readIdentLike cs = (.ident (String.ofList (readName cs).1), (readName cs).2) ∨
      (∃ name, (readIdentLike cs).1 = .opening (.function name)) ∨ (readIdentLike cs).1 = .url := by
  simp only [readIdentLike]
  split
  · split_ifs
    · split
      · exact .inr (.inl ⟨_, rfl⟩)
      · exact .inr (.inl ⟨_, rfl⟩)
      · exact .inr (.inr rfl)
    · exact .inr (.inl ⟨_, rfl⟩)
  · exact .inl rfl

theorem readToken_cases (c : Char) (r : List Char) :
    readToken c r = readNumeric (c :: r) ∨
      readToken c r = (if (readQuoted c r).2.2 then .quoted (String.ofList (readQuoted c r).1)
        else .badString, (readQuoted c r).2.1) ∨
      (∃ name, (readToken c r).1 = .hash name) ∨ (∃ name, (readToken c r).1 = .atKeyword name) ∨
      (∃ m, (readToken c r).1 = .mark m) ∨ readToken c r = readIdentLike (c :: r) ∨
      readToken c r = (readSingle c, r) := by
  simp only [readToken]
  split
  · exact .inl rfl
  refine .inr ?_
  split
  · exact .inl rfl
  refine .inr ?_
  split
  · exact .inl ⟨_, rfl⟩
  refine .inr ?_
  split
  · exact .inl ⟨_, rfl⟩
  refine .inr ?_
  split
  · exact .inl ⟨_, rfl⟩
  refine .inr ?_
  split
  · exact .inl rfl
  · exact .inr rfl

theorem eq_of_readToken_square {c : Char} {r : List Char}
    (h : (readToken c r).1 = .opening .square) : c = '[' := by
  rcases readToken_cases c r with hr | hr | ⟨_, hr⟩ | ⟨_, hr⟩ | ⟨_, hr⟩ | hr | hr
  · rw [hr] at h
    rcases readNumeric_cases (c :: r) with ⟨_, _, hn⟩ | ⟨_, _, hn⟩ | ⟨_, _, _, hn⟩ <;>
      rw [hn] at h <;> cases h
  · rw [hr] at h
    simp only at h
    split_ifs at h
  · rw [hr] at h
    cases h
  · rw [hr] at h
    cases h
  · rw [hr] at h
    cases h
  · rw [hr] at h
    rcases readIdentLike_cases (c :: r) with hn | ⟨_, hn⟩ | hn <;> rw [hn] at h <;> cases h
  · rw [hr] at h
    simp only [readSingle] at h
    split at h <;> first | rfl | cases h

theorem mem_of_mem_tokens_square {cs : List Char} (h : .opening .square ∈ tokens cs) :
    '[' ∈ cs := by
  fun_induction tokens cs with
  | case1 => cases h
  | case2 cs c r front t ih =>
    have hs : ∀ d ∈ c :: r, d ∈ cs := fun d hd => (skipTrivia_suffix cs).subset (front ▸ hd)
    rcases List.mem_cons.1 h with h | h
    · exact hs _ (eq_of_readToken_square h.symm ▸ List.mem_cons_self)
    · exact hs _ (List.mem_cons_of_mem c ((readToken_suffix c r).subset (ih h)))

/-! ## The letters of tokens -/

/-- The characters of an identifier or a string. -/
def Token.letters : Token → List Char
  | .ident name => name.toList
  | .quoted text => text.toList
  | _ => []

theorem replacement_ne_zero : replacement ≠ '\x00' := by decide

theorem charOfNumber_ne_zero (n : Nat) : charOfNumber n ≠ '\x00' := by
  unfold charOfNumber
  by_cases h : n.isValidChar
  · rw [dif_pos h]
    by_cases h0 : n = 0
    · rw [if_pos h0]
      exact replacement_ne_zero
    · rw [if_neg h0]
      exact fun he => h0 (congrArg Char.toNat he)
  · rw [dif_neg h]
    exact replacement_ne_zero

theorem readEscape_ne_zero (cs : List Char) : (readEscape cs).1 ≠ '\x00' := by
  cases cs with
  | nil => decide
  | cons c r =>
    simp only [readEscape]
    split_ifs with h hc
    · exact charOfNumber_ne_zero _
    · exact replacement_ne_zero
    · exact hc

theorem zero_notMem_cons {c : Char} {cs : List Char} (h : '\x00' ∉ cs) :
    '\x00' ∉ (if c = '\x00' then replacement else c) :: cs := by
  refine List.not_mem_cons_of_ne_of_not_mem ?_ h
  split_ifs with hc
  · exact replacement_ne_zero.symm
  · exact Ne.symm hc

/-- A name has no more characters than it is written with, and no zero character. -/
theorem readName_letters (cs : List Char) :
    '\x00' ∉ (readName cs).1 ∧ (readName cs).1.length + (readName cs).2.length ≤ cs.length := by
  fun_induction readName cs with
  | case1 => simp
  | case2 => simp
  | case3 r _ e n ih =>
    have hr : e.2.length ≤ r.length := (readEscape_suffix r).length_le
    have hl : n.1.length + n.2.length ≤ e.2.length := ih.2
    refine ⟨List.not_mem_cons_of_ne_of_not_mem (readEscape_ne_zero r).symm ih.1, ?_⟩
    simp only [List.length_cons]
    omega
  | case4 c r _ _ n ih =>
    have hl : n.1.length + n.2.length ≤ r.length := ih.2
    refine ⟨zero_notMem_cons ih.1, ?_⟩
    simp only [List.length_cons]
    omega
  | case5 => simp

theorem readQuoted_letters (quote : Char) (cs : List Char) :
    '\x00' ∉ (readQuoted quote cs).1 ∧
      (readQuoted quote cs).1.length + (readQuoted quote cs).2.1.length ≤ cs.length := by
  fun_induction readQuoted quote cs with
  | case1 => simp
  | case2 => simp
  | case3 => simp
  | case4 => simp
  | case5 r _ _ _ _ ih =>
    have hr := (dropSpace_suffix r).length_le
    refine ⟨ih.1, ?_⟩
    simp only [List.length_cons]
    omega
  | case6 r _ _ e q _ _ ih =>
    have hr : e.2.length ≤ r.length := (readEscape_suffix r).length_le
    have hl : q.1.length + q.2.1.length ≤ e.2.length := ih.2
    refine ⟨List.not_mem_cons_of_ne_of_not_mem (readEscape_ne_zero r).symm ih.1, ?_⟩
    simp only [List.length_cons]
    omega
  | case7 c r _ _ _ q ih =>
    have hl : q.1.length + q.2.1.length ≤ r.length := ih.2
    refine ⟨zero_notMem_cons ih.1, ?_⟩
    simp only [List.length_cons]
    omega

theorem letters_readSingle (c : Char) : (readSingle c).letters = [] := by
  unfold readSingle
  split <;> rfl

/-- **A token has no more letters than it is written with**, and none is a zero character. -/
theorem readToken_letters (c : Char) (r : List Char) : '\x00' ∉ (readToken c r).1.letters ∧
    (readToken c r).1.letters.length + (readToken c r).2.length ≤ (c :: r).length := by
  have plain (h : (readToken c r).1.letters = []) : '\x00' ∉ (readToken c r).1.letters ∧
      (readToken c r).1.letters.length + (readToken c r).2.length ≤ (c :: r).length := by
    have hs := (readToken_suffix c r).length_le
    rw [h]
    simp only [List.length_nil, List.length_cons]
    exact ⟨List.not_mem_nil, by omega⟩
  rcases readToken_cases c r with hr | hr | ⟨_, hr⟩ | ⟨_, hr⟩ | ⟨_, hr⟩ | hr | hr
  · refine plain ?_
    rw [hr]
    rcases readNumeric_cases (c :: r) with ⟨_, _, hn⟩ | ⟨_, _, hn⟩ | ⟨_, _, _, hn⟩ <;> rw [hn] <;>
      rfl
  · obtain ⟨h0, hl⟩ := readQuoted_letters c r
    by_cases hg : (readQuoted c r).2.2 = true
    · rw [hr, if_pos hg]
      simp only [Token.letters, String.toList_ofList, List.length_cons]
      exact ⟨h0, by omega⟩
    · exact plain (by rw [hr, if_neg hg]; rfl)
  · exact plain (by rw [hr]; rfl)
  · exact plain (by rw [hr]; rfl)
  · exact plain (by rw [hr]; rfl)
  · rcases readIdentLike_cases (c :: r) with hn | ⟨_, hn⟩ | hn
    · rw [hr, hn]
      simp only [Token.letters, String.toList_ofList]
      exact readName_letters (c :: r)
    · exact plain (by rw [hr, hn]; rfl)
    · exact plain (by rw [hr, hn]; rfl)
  · exact plain (by rw [hr]; exact letters_readSingle c)

/-- All tokens of a text together have no more letters than it. -/
theorem tokens_letters (cs : List Char) : '\x00' ∉ (tokens cs).flatMap Token.letters ∧
    ((tokens cs).flatMap Token.letters).length ≤ cs.length := by
  fun_induction tokens cs with
  | case1 => simp
  | case2 cs c r front t ih =>
    obtain ⟨h0, hl⟩ := readToken_letters c r
    have hs := (skipTrivia_suffix cs).length_le
    have hi : ((tokens t.2).flatMap Token.letters).length ≤ t.2.length := ih.2
    rw [front] at hs
    simp only [List.flatMap_cons, List.mem_append, not_or, List.length_append]
    exact ⟨⟨h0, ih.1⟩, Nat.le_trans (Nat.add_le_add_left hi _) (Nat.le_trans hl hs)⟩

end DesignVars.Css
