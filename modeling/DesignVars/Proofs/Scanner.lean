import DesignVars.Proofs.Declaration
import Mathlib.Data.List.Infix

/-!
# Steps of a scan

* `Ending.chars`, `readStatement_suffix`: what ends a statement stands in the text with what
  follows it;
* **`Scanner.step_cases`**: all that a step does to the text and to the open blocks;
* **`Scanner.forall_declarations_of_invariant`**: what steps keep holds along a scan;
* `Scanner.length_of_step`, `Scanner.length_declarations_le`: a declaration takes four characters
  or more;
* `Scanner.located`, `Scanner.places_of_mem_located`: the declarations with the blocks they stand
  in, of which they hold the innermost one and the innermost at-rule.
-/

namespace DesignVars

open Text Css

/-! ## Statements -/

/-- The characters of an ending. -/
def Ending.chars : Ending → List Char
  | .semicolon => [';']
  | .openBrace => ['{']
  | .closeBrace => ['}']
  | .endOfText => []

theorem readStatement_suffix (depth : Nat) (cs : List Char) :
    (readStatement depth cs).2.1.chars ++ (readStatement depth cs).2.2 <:+ cs := by
  fun_induction readStatement depth cs with
  | case1 => exact List.suffix_rfl
  | case2 depth r ih =>
    exact (ih.trans (afterComment_suffix r)).trans (List.suffix_append ['/', '*'] r)
  | case3 depth c r _ _ ih =>
    have hs : (takeString c r).2 <:+ r := ⟨(takeString c r).1, takeString_append c r⟩
    exact (ih.trans hs).trans (List.suffix_cons c r)
  | case4 depth c r _ _ hc =>
    obtain ⟨-, rfl⟩ : depth = 0 ∧ c = ';' := by simpa using hc
    exact List.suffix_rfl
  | case5 depth c r _ _ _ hc =>
    obtain ⟨-, rfl⟩ : depth = 0 ∧ c = '{' := by simpa using hc
    exact List.suffix_rfl
  | case6 depth c r _ _ _ _ hc =>
    obtain ⟨-, rfl⟩ : depth = 0 ∧ c = '}' := by simpa using hc
    exact List.suffix_rfl
  | case7 depth c r _ _ _ _ _ ih => exact ih.trans (List.suffix_cons c r)

theorem eq_nil_of_endOfText (depth : Nat) (cs : List Char)
    (h : (readStatement depth cs).2.1 = .endOfText) : (readStatement depth cs).2.2 = [] := by
  fun_induction readStatement depth cs with
  | case1 => rfl
  | case2 depth r ih => exact ih h
  | case3 depth c r _ _ ih => exact ih h
  | case4 => cases h
  | case5 => cases h
  | case6 => cases h
  | case7 depth c r _ _ _ _ _ ih => exact ih h

/-- A declaration takes two hyphens, a name and a colon. -/
theorem four_le_length_of_declaration? {preludes : List String} {text : List Char}
    {d : Declaration} (h : declaration? preludes text = some d) : 4 ≤ text.length := by
  unfold declaration? at h
  split at h
  · cases h
  rename_i body hbody
  split at h
  · cases h
  rename_i name value hcut
  simp only at h
  split_ifs at h with hn
  have hname : name ≠ [] := by
    rintro rfl
    cases hn
  have htext := congrArg List.length (List.append_eq_of_isPrefixOf?_eq_some hbody)
  have hlen := congrArg List.length (eq_append_of_cut? hcut)
  have htrim := length_trim_le text
  have hpos := List.length_pos_iff.2 hname
  simp only [List.length_append, List.length_cons, List.length_nil] at htext hlen
  omega

/-- The text before a brace that begins with `@`. -/
def isAtRule (prelude : String) : Bool := prelude.toList.head? == some '@'

theorem places_of_declaration? {preludes : List String} {text : List Char} {d : Declaration}
    (h : declaration? preludes text = some d) :
    d.selector = preludes.head? ∧ d.atRule = preludes.find? isAtRule := by
  unfold declaration? at h
  split at h
  · cases h
  split at h
  · cases h
  simp only at h
  split_ifs at h
  cases h
  exact ⟨rfl, rfl⟩

/-! ## Steps -/

namespace Scanner

/-- **All that a step does.** It reads a statement and goes on behind it; the text before an
opening brace becomes the innermost prelude, and a declaration is made of the text and the preludes
around it. -/
theorem step_cases {s s' : Scanner} {found : Option Declaration}
    (h : s.step = some (found, s')) :
    ∃ text ending after, readStatement 0 (skipTrivia s.rest) = (text, ending, after) ∧
      s'.rest <:+ ending.chars ++ after ∧
      (∀ d ∈ found, ∃ e comment, declaration? s.preludes text = some e ∧ d = { e with comment }) ∧
      (s'.preludes = s.preludes ∨ s'.preludes = s.preludes.tail ∨
        ending = .openBrace ∧ s'.preludes = String.ofList (trim text) :: s.preludes) := by
  unfold step at h
  split at h
  · cases h
  rename_i c r front
  rcases hr : readStatement 0 (c :: r) with ⟨text, ending, after⟩
  rw [hr] at h
  refine ⟨text, ending, after, front ▸ hr, ?_⟩
  cases ending <;> simp only at h
  case semicolon =>
    split at h
    · rename_i e he
      cases h
      refine ⟨(trailingComment_suffix after).trans (List.suffix_cons ';' after), ?_, .inl rfl⟩
      rintro d ⟨⟩
      exact ⟨e, _, he, rfl⟩
    · cases h
      exact ⟨List.suffix_cons ';' after, fun d hd => absurd hd (Option.not_mem_none d), .inl rfl⟩
  case openBrace =>
    cases h
    exact ⟨List.suffix_cons '{' after, fun d hd => absurd hd (Option.not_mem_none d),
      .inr (.inr ⟨rfl, rfl⟩)⟩
  case closeBrace =>
    split_ifs at h
    · cases h
      exact ⟨List.suffix_cons '}' after, fun d hd => absurd hd (Option.not_mem_none d),
        .inr (.inl rfl)⟩
    · cases h
      exact ⟨List.suffix_rfl, fun d hd => ⟨d, d.comment, hd, rfl⟩, .inl rfl⟩
  case endOfText =>
    cases h
    exact ⟨List.nil_suffix, fun d hd => ⟨d, d.comment, hd, rfl⟩, .inl rfl⟩

theorem places_of_step {s s' : Scanner} {d : Declaration} (h : s.step = some (some d, s')) :
    d.selector = s.preludes.head? ∧ d.atRule = s.preludes.find? isAtRule := by
  obtain ⟨text, -, -, -, -, hd, -⟩ := step_cases h
  obtain ⟨e, comment, he, rfl⟩ := hd d rfl
  have hp := places_of_declaration? he
  exact hp

/-- What every step keeps, and gives the declaration it reads, all declarations of a scan have. -/
theorem forall_declarations_of_invariant {Inv : Scanner → Prop} {Q : Declaration → Prop}
    (hstep : ∀ {s found s'}, s.step = some (found, s') → Inv s → Inv s' ∧ ∀ d ∈ found, Q d)
    {s : Scanner} (h : Inv s) : ∀ d ∈ s.declarations, Q d := by
  fun_induction declarations s with
  | case1 => exact fun d hd => absurd hd List.not_mem_nil
  | case2 s found s' hs ih =>
    obtain ⟨h', hq⟩ := hstep hs h
    intro d hd
    rcases List.mem_append.1 hd with hd | hd
    · exact hq d (Option.mem_toList.1 hd)
    · exact ih h' d hd

/-! ## Progress -/

section Progress

variable {s s' : Scanner} {found : Option Declaration}

theorem skipTrivia_of_step_eq_none (h : s.step = none) : skipTrivia s.rest = [] := by
  unfold step at h
  split at h
  · assumption
  · rename_i c r _
    rcases hr : readStatement 0 (c :: r) with ⟨text, ending, after⟩
    rw [hr] at h
    cases ending <;> simp only at h
    case semicolon => split at h <;> cases h
    case openBrace => cases h
    case closeBrace => split_ifs at h
    case endOfText => cases h

theorem step_suffix (h : s.step = some (found, s')) : s'.rest <:+ s.rest := by
  obtain ⟨text, ending, after, hr, hs, -⟩ := step_cases h
  have hread := readStatement_suffix 0 (skipTrivia s.rest)
  rw [hr] at hread
  exact (hs.trans hread).trans (skipTrivia_suffix s.rest)

theorem length_of_step {d : Declaration} (h : s.step = some (some d, s')) :
    s'.rest.length + 4 ≤ s.rest.length := by
  obtain ⟨text, ending, after, hr, hs, hd, -⟩ := step_cases h
  obtain ⟨e, -, he, -⟩ := hd d rfl
  have htext := four_le_length_of_declaration? he
  have hread := readStatement_length 0 (skipTrivia s.rest)
  rw [hr] at hread
  have hchars : ending.chars.length = ending.width := by cases ending <;> rfl
  have hrest := hs.length_le
  have htrivia := (skipTrivia_suffix s.rest).length_le
  rw [List.length_append, hchars] at hrest
  simp only at hread
  omega

/-- A scan finds no more declarations than a fourth of its characters. -/
theorem length_declarations_le (s : Scanner) : 4 * s.declarations.length ≤ s.rest.length := by
  fun_induction declarations s with
  | case1 => exact Nat.zero_le _
  | case2 s found s' hs ih =>
    cases found with
    | none =>
      have hlt := step_length_lt hs
      rw [Option.toList_none, List.nil_append]
      omega
    | some d =>
      have hlen := length_of_step hs
      rw [Option.toList_some, List.singleton_append, List.length_cons]
      omega

end Progress

/-! ## The blocks around a declaration -/

/-- The declarations of a scan, each with what stands before the braces of the blocks around it,
innermost first. -/
def located (s : Scanner) : List (List String × Declaration) :=
  match _read : s.step with
  | none => []
  | some (found, s') => (found.toList.map fun d => (s.preludes, d)) ++ s'.located
termination_by s.rest.length
decreasing_by exact step_length_lt _read

theorem map_snd_located (s : Scanner) : s.located.map Prod.snd = s.declarations := by
  fun_induction located s with
  | case1 s hs =>
    rw [declarations_eq, hs]
    rfl
  | case2 s found s' hs ih =>
    rw [declarations_eq, hs, List.map_append, ih, List.map_map]
    exact congrArg (· ++ s'.declarations) (List.map_id found.toList)

theorem places_of_mem_located {s : Scanner} {stack : List String} {d : Declaration}
    (h : (stack, d) ∈ s.located) :
    d.selector = stack.head? ∧ d.atRule = stack.find? isAtRule := by
  fun_induction located s with
  | case1 => cases h
  | case2 s found s' hs ih =>
    rcases List.mem_append.1 h with h | h
    · obtain ⟨e, he, ⟨⟩⟩ := List.mem_map.1 h
      rw [Option.mem_toList.1 he] at hs
      exact places_of_step hs
    · exact ih h

end Scanner

end DesignVars
