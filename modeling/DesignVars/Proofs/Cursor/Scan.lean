import DesignVars.Proofs.Cursor.Statement

/-!
# Scanning by byte positions

* `Cursor`, `Cursor.turn?`, `Cursor.next?`: the scanner by positions;
* `Cursor.Follows`: a cursor stands where the scanner by characters does;
* `Cursor.Follows.turn?_eq`, `Cursor.Follows.next?_eq`: then it takes the same step and makes the
  same call;
* **`Cursor.next?_total`**: so it ends without a fault and makes progress in any text.
-/

namespace DesignVars

open Text Css

/-- Where a scan by positions has got to, and what stands before the braces of the open blocks,
innermost first. -/
structure Cursor where
  pos : Nat
  preludes : List String

namespace Cursor

/-- What comes of a statement, the ending of which is at a position: the scan goes on, or there is
a declaration. -/
def act? (cs : List Char) (preludes : List String) (text : List Char) (j : Nat) :
    Ending → Option (Turn Cursor (Option Declaration × Cursor))
  | .openBrace => some (.again ⟨j + 1, String.ofList (trim text) :: preludes⟩)
  | .closeBrace =>
    if isAllBlank text then some (.again ⟨j + 1, preludes.tail⟩)
    else match declaration? preludes text with
      | none => some (.again ⟨j, preludes⟩)
      | some d => some (.done (some d, ⟨j, preludes⟩))
  | .endOfText =>
    match declaration? preludes text with
    | none => some (.again ⟨j, preludes⟩)
    | some d => some (.done (some d, ⟨j, preludes⟩))
  | .semicolon =>
    match declaration? preludes text with
    | none => some (.again ⟨j + 1, preludes⟩)
    | some d => do
      let (comment, k) ← trailingComment? cs (j + 1)
      return .done (some { d with comment }, ⟨k, preludes⟩)

/-- Reads one statement, if there is one left. -/
def turn? (cs : List Char) (c : Cursor) : Option (Turn Cursor (Option Declaration × Cursor)) := do
  let i ← skipTrivia? cs c.pos
  if i < byteSize cs then
    let (text, ending, j) ← readStatement? cs i
    act? cs c.preludes text j ending
  else
    return .done (none, ⟨i, c.preludes⟩)

/-- The next declaration, if there is one left, and where the scan goes on. -/
def next? (cs : List Char) (c : Cursor) : Option (Option Declaration × Cursor) :=
  loop? (byteSize cs) pos (turn? cs) c

/-- The cursor after a number of calls. -/
def after? (text : String) : Nat → Option Cursor
  | 0 => some ⟨0, []⟩
  | n + 1 => do
    let c ← after? text n
    let (_, c') ← c.next? text.toList
    return c'

/-- The cursor stands where the scanner does. -/
structure Follows (cs : List Char) (c : Cursor) (s : Scanner) : Prop where
  rest : from? cs c.pos = some s.rest
  preludes : c.preludes = s.preludes

variable {cs : List Char} {c : Cursor} {s : Scanner}

theorem Follows.turn?_eq_none (h : c.Follows cs s) (hs : s.step = none) :
    ∃ c', c'.Follows cs ⟨[], s.preludes⟩ ∧ c.turn? cs = some (.done (none, c')) := by
  obtain ⟨i, hi, hfrom⟩ := skipTrivia?_eq h.rest
  rw [Scanner.skipTrivia_of_step_eq_none hs] at hfrom
  have hge : ¬i < byteSize cs := not_lt_byteSize hfrom
  exact ⟨⟨i, c.preludes⟩, ⟨hfrom, h.preludes⟩, by simp [turn?, hi, hge]⟩

/-- **A turn does what a step of the scanner does**, and goes on if that makes no declaration. -/
theorem Follows.turn?_eq {s' : Scanner} {found : Option Declaration} (h : c.Follows cs s)
    (hs : s.step = some (found, s')) :
    ∃ c', c'.Follows cs s' ∧
      c.turn? cs = some (found.elim (.again c') fun d => .done (some d, c')) := by
  obtain ⟨i, hi, hfrom⟩ := skipTrivia?_eq h.rest
  unfold Scanner.step at hs
  split at hs
  · cases hs
  rename_i d r front
  rw [front] at hfrom
  have hlt := lt_byteSize hfrom
  obtain ⟨j, hj, hlast⟩ := readStatement?_eq hfrom
  rcases hr : readStatement 0 (d :: r) with ⟨text, ending, after⟩
  rw [hr] at hs hj hlast
  have hturn : c.turn? cs = act? cs s.preludes text j ending := by
    rw [turn?, hi, Option.bind_eq_bind, Option.bind_some, if_pos hlt, hj, h.preludes]
    rfl
  rw [hturn]
  cases ending <;> simp only at hs
  case semicolon =>
    have hnext := (byteAt?_ascii hlast (by decide)).2
    cases hd : declaration? s.preludes text with
    | none =>
      rw [hd] at hs
      cases hs
      exact ⟨⟨j + 1, s.preludes⟩, ⟨hnext, rfl⟩, by simp [act?, hd]⟩
    | some d =>
      rw [hd] at hs
      cases hs
      obtain ⟨k, hk, hbehind⟩ := trailingComment?_eq hnext
      exact ⟨⟨k, s.preludes⟩, ⟨hbehind, rfl⟩, by simp [act?, hd, hk]⟩
  case openBrace =>
    cases hs
    exact ⟨⟨j + 1, _⟩, ⟨(byteAt?_ascii hlast (by decide)).2, rfl⟩, rfl⟩
  case closeBrace =>
    split_ifs at hs with hb
    · cases hs
      exact ⟨⟨j + 1, _⟩, ⟨(byteAt?_ascii hlast (by decide)).2, rfl⟩, by simp [act?, hb]⟩
    · cases hs
      refine ⟨⟨j, s.preludes⟩, ⟨hlast, rfl⟩, ?_⟩
      cases hd : declaration? s.preludes text <;> simp [act?, hb, hd]
  case endOfText =>
    cases hs
    have hafter : after = [] := by
      have hnil := eq_nil_of_endOfText 0 (d :: r)
      rw [hr] at hnil
      exact hnil rfl
    rw [hafter] at hlast
    refine ⟨⟨j, s.preludes⟩, ⟨hlast, rfl⟩, ?_⟩
    cases hd : declaration? s.preludes text <;> simp [act?, hd]

/-- **A call finds what the scanner finds next**, and moves forward with it. -/
theorem Follows.next?_eq (h : c.Follows cs s) :
    ∃ found c' s', c.next? cs = some (found, c') ∧ c'.Follows cs s' ∧
      s.next = found.map (fun d => (d, s')) ∧
      s.declarations.head? = found ∧ s.declarations.tail = s'.declarations ∧
      c.pos ≤ c'.pos ∧ ∀ d ∈ found, c.pos + 4 ≤ c'.pos ∧ isValidName d.name = true ∧
        trimmed d.value = d.value := by
  fun_induction Scanner.next s generalizing c with
  | case1 s hs =>
    obtain ⟨c', hc', ht⟩ := h.turn?_eq_none hs
    have hpos := add_length_le_of_from? h.rest hc'.rest List.nil_suffix
    rw [List.length_nil] at hpos
    rw [Scanner.declarations_eq, hs]
    exact ⟨none, c', _, loop?_done ht, hc', rfl, rfl, (Scanner.declarations_nil _).symm,
      by omega, nofun⟩
  | case2 s d s' hs =>
    obtain ⟨c', hc', ht⟩ := h.turn?_eq hs
    have hpos := add_length_le_of_from? h.rest hc'.rest (Scanner.step_suffix hs)
    have hlen := Scanner.length_of_step hs
    have hd : isValidName d.name = true ∧ trimmed d.value = d.value :=
      Scanner.forall_step (Q := fun d => isValidName d.name = true ∧ trimmed d.value = d.value)
        (fun _ _ _ hd _ => (declaration?_eq_some hd :)) hs
    rw [Scanner.declarations_eq, hs]
    refine ⟨some d, c', s', loop?_done ht, hc', rfl, rfl, rfl, by omega, ?_⟩
    rintro _ ⟨⟩
    exact ⟨by omega, hd⟩
  | case3 s s' hs ih =>
    obtain ⟨c', hc', ht⟩ := h.turn?_eq hs
    have hpos := add_length_le_of_from? h.rest hc'.rest (Scanner.step_suffix hs)
    have hlen := Scanner.step_length_lt hs
    have hend := add_byteSize_of_from? hc'.rest
    have hgo : c.next? cs = c'.next? cs := loop?_again ht (by omega) (by omega)
    have hdecl : s.declarations = s'.declarations := by
      rw [Scanner.declarations_eq, hs]
      rfl
    obtain ⟨found, c'', s'', hnext, hc'', hs'', hhead, htail, hle, hfound⟩ := ih hc'
    rw [hgo, hdecl]
    refine ⟨found, c'', s'', hnext, hc'', hs'', hhead, htail, by omega, fun d hd => ?_⟩
    obtain ⟨hpos', hd⟩ := hfound d hd
    exact ⟨by omega, hd⟩

/-- Call after call, what is left to find are the declarations that have not been found. -/
theorem after?_eq (text : String) (n : Nat) :
    ∃ c s, after? text n = some c ∧ c.Follows text.toList s ∧
      s.declarations = (scan text).drop n := by
  induction n with
  | zero => exact ⟨⟨0, []⟩, .ofText text, rfl, ⟨from?_eq_some_iff.2 ⟨[], rfl, rfl⟩, rfl⟩, rfl⟩
  | succ n ih =>
    obtain ⟨c, s, hc, hs, hdecl⟩ := ih
    obtain ⟨found, c', s', hnext, hs', -, -, htail, -⟩ := hs.next?_eq
    refine ⟨c', s', by simp [after?, hc, hnext], hs', ?_⟩
    rw [← htail, hdecl, List.tail_drop]

theorem next?_after? (text : String) (n : Nat) :
    ∃ c c', after? text n = some c ∧ c.next? text.toList = some ((scan text)[n]?, c') ∧
      c.pos ≤ c'.pos ∧ (∃ rest, from? text.toList c'.pos = some rest) ∧
      ∀ d ∈ (scan text)[n]?, c.pos + 4 ≤ c'.pos ∧ isValidName d.name = true ∧
        trimmed d.value = d.value := by
  obtain ⟨c, s, hc, hs, hdecl⟩ := after?_eq text n
  obtain ⟨found, c', s', hnext, hs', -, hhead, -, hle, hfound⟩ := hs.next?_eq
  rw [hdecl, List.head?_drop] at hhead
  rw [hhead]
  exact ⟨c, c', hc, hnext, hle, ⟨s'.rest, hs'.rest⟩, hfound⟩

/-- **The scanner is total and makes progress.** Every call of it ends without a fault and gives
one more declaration, or none from then on. -/
theorem next?_total (text : String) :
    (∀ n, ∃ c found c', after? text n = some c ∧ c.next? text.toList = some (found, c') ∧
      found = (scan text)[n]? ∧
      c.pos ≤ c'.pos ∧ c'.pos ≤ byteSize text.toList ∧
      (∃ rest, from? text.toList c'.pos = some rest) ∧
      (∀ d ∈ found, c.pos + 4 ≤ c'.pos ∧ isValidName d.name = true ∧
        trimmed d.value = d.value) ∧
      (found = none → ∀ m ≥ n, ∃ e e', after? text m = some e ∧
        e.next? text.toList = some (none, e'))) ∧
    4 * (scan text).length ≤ byteSize text.toList := by
  refine ⟨fun n => ?_, ?_⟩
  · obtain ⟨c, c', hc, hnext, hle, ⟨rest, hrest⟩, hfound⟩ := next?_after? text n
    have hend := add_byteSize_of_from? hrest
    refine ⟨c, _, c', hc, hnext, rfl, hle, by omega, ⟨rest, hrest⟩, hfound, fun hnone m hm => ?_⟩
    obtain ⟨e, e', he, hnext', -⟩ := next?_after? text m
    have hlen : (scan text).length ≤ m := (List.getElem?_eq_none_iff.1 hnone).trans hm
    rw [List.getElem?_eq_none hlen] at hnext'
    exact ⟨e, e', he, hnext'⟩
  · exact (Scanner.length_declarations_le (.ofText text)).trans (length_le_byteSize text.toList)

/-- A comment that begins with `/*/`, and a string that is not closed and has a backslash before a
character of two bytes. -/
def openString : String := "/*/é*/--a:'\\é;"

theorem next?_total_openString :
    (∃ c d c', after? openString 0 = some c ∧ c.next? openString.toList = some (some d, c') ∧
      c.pos + 4 ≤ c'.pos ∧ isValidName d.name = true ∧ trimmed d.value = d.value) ∧
    ∀ m ≥ 1, ∃ e e', after? openString m = some e ∧
      e.next? openString.toList = some (none, e') := by
  have hlen : (scan openString).length = 1 := by decide +kernel
  constructor
  · obtain ⟨c, _, c', hc, hnext, rfl, -, -, -, hfound, -⟩ := (next?_total openString).1 0
    obtain ⟨d, hd⟩ : ∃ d, (scan openString)[0]? = some d :=
      ⟨_, List.getElem?_eq_getElem (Nat.lt_of_lt_of_eq Nat.zero_lt_one hlen.symm)⟩
    rw [hd] at hnext
    exact ⟨c, d, c', hc, hnext, hfound d hd⟩
  · obtain ⟨-, _, -, -, -, rfl, -, -, -, -, hnone⟩ := (next?_total openString).1 1
    exact hnone (List.getElem?_eq_none (Nat.le_of_eq hlen))

end Cursor

end DesignVars
