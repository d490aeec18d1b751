import DesignVars.Text.Blank

/-!
# YAML scalars

A scalar may go on over several lines. Where it does, one line end stands for a space, and further
ones for themselves.

* `Spot`: a character with its line and its column;
* `wordEnds`, `marker?`: what the characters at the front are;
* **`spots?`**: the characters of a text, with one line feed for every way to end a line but the
  Unicode separators, if the text has none that are not allowed;
* `Gap`: blanks and line ends between two words of a scalar, and the text they stand for;
* `plain?`, `singleQuoted?`, `doubleQuoted?`: the text of a scalar and what follows it;
* `plain?_length_le`, `singleQuoted?_length_lt`, `doubleQuoted?_length_lt`: what follows a scalar
  is no longer than the text.
-/

namespace DesignVars.Yaml

open Text

/-! ## Characters -/

/-- A character and where it stands; lines and columns count from zero. -/
structure Spot where
  char : Char
  line : Nat
  column : Nat
deriving DecidableEq, Repr

def isBlank (c : Char) : Bool := c == ' ' || c == '\t'

/-- A character that ends a line. -/
def isBreak (c : Char) : Bool :=
  c == '\n' || c == '\r' || c == '\x85' || c == '\u2028' || c == '\u2029'

/-- The mark that a text may have before a line to tell the order of its bytes. -/
def byteOrderMark : Char := '\uFEFF'

/-- Control characters other than tabs and line ends are not allowed. -/
def isAllowed (c : Char) : Bool :=
  let n := c.toNat
  n == 9 || n == 10 || n == 13 || (0x20 ≤ n && n ≤ 0x7E) || n == 0x85 ||
    (0xA0 ≤ n && n ≤ 0xFFFD) || 0x10000 ≤ n

/-! ## Texts -/

/-- The characters from a place on. -/
def spotsFrom (line column : Nat) : List Char → List Spot
  | [] => []
  | '\r' :: '\n' :: r => ⟨'\n', line, column⟩ :: spotsFrom (line + 1) 0 r
  | c :: r =>
    if c = '\n' ∨ c = '\r' ∨ c = '\x85' then ⟨'\n', line, column⟩ :: spotsFrom (line + 1) 0 r
    else if isBreak c then ⟨c, line, column⟩ :: spotsFrom (line + 1) 0 r
    else ⟨c, line, column⟩ :: spotsFrom line (column + 1) r

def spots? (text : String) : Option (List Spot) :=
  if text.toList.all isAllowed then some (spotsFrom 0 0 text.toList) else none

/-! ## Looking ahead -/

/-- Holds at the end and before blanks and line ends. -/
def wordEnds : List Spot → Bool
  | [] => true
  | s :: _ => isBlank s.char || isBreak s.char

/-- What follows three times the character `c` at the start of a line, with nothing right behind
them. -/
def marker? (c : Char) : List Spot → Option (List Spot)
  | s₁ :: s₂ :: s₃ :: r =>
    if s₁.column = 0 ∧ s₁.char = c ∧ s₂.char = c ∧ s₃.char = c ∧ wordEnds r then some r else none
  | _ => none

/-- Holds before the marks `---` and `...` that begin and end a document. -/
def atMarker (ss : List Spot) : Bool := (marker? '-' ss).isSome || (marker? '.' ss).isSome

theorem marker?_length_lt {c : Char} {ss rest : List Spot} (h : marker? c ss = some rest) :
    rest.length < ss.length := by
  unfold marker? at h
  split at h
  · split at h
    · simp only [Option.some.injEq] at h
      subst h
      simp only [List.length_cons]
      omega
    · cases h
  · cases h

/-! ## Between the words -/

/-- Blanks and line ends between two words of a scalar. -/
inductive Gap where
  /-- Blanks on one line, last first. -/
  | blanks (cs : List Char)
  /-- A line end, if it was not escaped, and the ones after it, last first. -/
  | breaks (first : Option Char) (more : List Char)
deriving DecidableEq, Repr

namespace Gap

/-- Nothing between two characters. -/
def none : Gap := .blanks []

def isEmpty : Gap → Bool
  | .blanks [] => true
  | _ => false

/-- Holds when a line ends here. -/
def hasBreak : Gap → Bool
  | .blanks _ => false
  | .breaks _ _ => true

/-- One more blank or line end. Blanks next to a line end do not count. -/
def push (g : Gap) (c : Char) : Gap :=
  match g with
  | .blanks cs => if isBreak c then .breaks (some c) [] else .blanks (c :: cs)
  | .breaks first more => if isBreak c then .breaks first (c :: more) else .breaks first more

/-- The text of a gap. A single line feed is a space, and the first of several is nothing. -/
def text : Gap → List Char
  | .blanks cs => cs.reverse
  | .breaks (some '\n') [] => [' ']
  | .breaks (some '\n') more => more.reverse
  | .breaks first more => first.toList ++ more.reverse

end Gap

def isGap (s : Spot) : Bool := isBlank s.char || isBreak s.char

/-! ## Plain scalars -/

/-- The text of a scalar, what follows it, and whether a line ended behind its last word. -/
structure Plain where
  text : List Char
  rest : List Spot
  lineEnded : Bool

/-- Characters that are part of the syntax between braces and brackets. -/
def isFlowMark (c : Char) : Bool := c == ',' || c == '[' || c == ']' || c == '{' || c == '}'

/-- Holds where a colon stands directly before a mark. -/
def colonBeforeMark (s : Spot) (rest : List Spot) : Bool :=
  s.char == ':' && rest.head?.any fun t => isFlowMark t.char || t.char == '?'

/-- Holds where no further word of a plain scalar begins: left of the column `indent` unless it
is between brackets (`flow`), at a comment, and at the marks of a document. -/
def noWord (flow : Bool) (indent : Nat) (s : Spot) (rest : List Spot) : Bool :=
  (!flow && s.column < indent) || s.char == '#' || atMarker (s :: rest)

/-- Holds where a word of a plain scalar ends before a character that is no blank. -/
def wordStops (flow : Bool) (s : Spot) (rest : List Spot) : Bool :=
  (s.char == ':' && wordEnds rest) || (flow && isFlowMark s.char)

/-- The rest of a plain scalar behind a gap. -/
def plain? (flow : Bool) (indent : Nat) (gap : Gap) : List Spot → Option Plain
  | [] => some ⟨[], [], gap.hasBreak⟩
  | s :: r =>
    if isGap s then
      if gap.hasBreak && s.char == '\t' && s.column < indent then none
      else plain? flow indent (gap.push s.char) r
    else if !gap.isEmpty && noWord flow indent s r then some ⟨[], s :: r, gap.hasBreak⟩
    else if flow && colonBeforeMark s r then none
    else if wordStops flow s r then some ⟨[], s :: r, gap.hasBreak⟩
    else (plain? flow indent .none r).map fun p => { p with text := gap.text ++ s.char :: p.text }

theorem plain?_length_le {flow : Bool} {indent : Nat} {gap : Gap} {ss : List Spot} {p : Plain}
    (h : plain? flow indent gap ss = some p) : p.rest.length ≤ ss.length := by
  fun_induction plain? flow indent gap ss generalizing p with
  | case1 => cases h; simp
  | case2 => cases h
  | case3 gap s r _ _ ih => exact Nat.le_succ_of_le (ih h)
  | case4 => cases h; exact Nat.le_refl _
  | case5 => cases h
  | case6 => cases h; exact Nat.le_refl _
  | case7 gap s r _ _ _ _ ih =>
    obtain ⟨q, hq, rfl⟩ := Option.map_eq_some_iff.1 h
    have := ih hq
    exact Nat.le_succ_of_le this

/-! ## Quoted scalars -/

/-- The rest of a scalar in single quotes. Two quotes stand for one. -/
def singleQuoted? (gap : Gap) : List Spot → Option (List Char × List Spot)
  | [] => none
  | s :: r =>
    if isGap s then singleQuoted? (gap.push s.char) r
    else if atMarker (s :: r) then none
    else if s.char = '\'' then
      match r with
      | t :: r' =>
        if t.char = '\'' then
          (singleQuoted? .none r').map fun p => (gap.text ++ '\'' :: p.1, p.2)
        else some (gap.text, t :: r')
      | [] => some (gap.text, [])
    else (singleQuoted? .none r).map fun p => (gap.text ++ s.char :: p.1, p.2)

/-- The number of `n` hexadecimal digits at the front. -/
def takeHex? : Nat → Nat → List Spot → Option (Nat × List Spot)
  | 0, value, ss => some (value, ss)
  | n + 1, value, s :: r => do takeHex? n (16 * value + (← hexValue? s.char)) r
  | _ + 1, _, [] => none

theorem takeHex?_length_le {n value m : Nat} {ss rest : List Spot}
    (h : takeHex? n value ss = some (m, rest)) : rest.length ≤ ss.length := by
  induction n generalizing value ss with
  | zero => cases h; exact Nat.le_refl _
  | succ n ih =>
    cases ss with
    | nil => cases h
    | cons s r =>
      simp only [takeHex?, Option.bind_eq_bind, Option.bind_eq_some_iff] at h
      obtain ⟨_, _, h⟩ := h
      exact Nat.le_succ_of_le (ih h)

/-- The character that a short escape stands for. -/
def shortEscape? : Char → Option Char
  | '0' => some '\x00'
  | 'a' => some '\x07'
  | 'b' => some '\x08'
  | 't' => some '\t'
  | '\t' => some '\t'
  | 'n' => some '\n'
  | 'v' => some '\x0b'
  | 'f' => some '\x0c'
  | 'r' => some '\r'
  | 'e' => some '\x1b'
  | ' ' => some ' '
  | '"' => some '"'
  | '/' => some '/'
  | '\\' => some '\\'
  | 'N' => some '\x85'
  | '_' => some '\xa0'
  | 'L' => some '\u2028'
  | 'P' => some '\u2029'
  | _ => none

/-- The number of digits after the letter of an escape. -/
def escapeDigits? : Char → Option Nat
  | 'x' => some 2
  | 'u' => some 4
  | 'U' => some 8
  | _ => none

/-- The character of an escape by its number, if there is one. -/
def charOfNat? (n : Nat) : Option Char := if n.isValidChar then some (Char.ofNat n) else none

/-- The character of an escape, by the letter `s` behind its backslash and what follows. -/
def escape? (s : Spot) (r : List Spot) : Option (Char × List Spot) :=
  match escapeDigits? s.char with
  | some n =>
    match takeHex? n 0 r with
    | some (value, rest) => (charOfNat? value).map fun c => (c, rest)
    | none => none
  | none => (shortEscape? s.char).map fun c => (c, r)

theorem escape?_length_le {s : Spot} {r rest : List Spot} {c : Char}
    (h : escape? s r = some (c, rest)) : rest.length ≤ r.length := by
  unfold escape? at h
  split at h
  · split at h
    · rename_i hx
      obtain ⟨_, _, he⟩ := Option.map_eq_some_iff.1 h
      cases he
      exact takeHex?_length_le hx
    · cases h
  · obtain ⟨_, _, he⟩ := Option.map_eq_some_iff.1 h
    cases he
    exact Nat.le_refl _

/-- The rest of a scalar in double quotes. A backslash at the end of a line joins it with the
next one. -/
def doubleQuoted? (gap : Gap) : List Spot → Option (List Char × List Spot)
  | [] => none
  | s :: r =>
    if isGap s then doubleQuoted? (gap.push s.char) r
    else if atMarker (s :: r) then none
    else if s.char = '"' then some (gap.text, r)
    else if s.char = '\\' then
      match r with
      | [] => none
      | t :: r' =>
        if isBreak t.char then
          (doubleQuoted? (.breaks Option.none []) r').map fun p => (gap.text ++ p.1, p.2)
        else
          match _read : escape? t r' with
          | some (c, rest) =>
            (doubleQuoted? .none rest).map fun p => (gap.text ++ c :: p.1, p.2)
          | none => none
    else (doubleQuoted? .none r).map fun p => (gap.text ++ s.char :: p.1, p.2)
termination_by ss => ss.length
decreasing_by
  all_goals simp only [List.length_cons]
  all_goals try have := escape?_length_le _read
  all_goals omega

theorem singleQuoted?_length_lt {gap : Gap} {ss rest : List Spot} {text : List Char}
    (h : singleQuoted? gap ss = some (text, rest)) : rest.length < ss.length := by
  fun_induction singleQuoted? gap ss generalizing text rest with
  | case1 => cases h
  | case2 gap s r _ ih => exact Nat.lt_succ_of_lt (ih h)
  | case3 => cases h
  | case4 gap s _ _ _ t r' _ ih =>
    obtain ⟨q, hq, he⟩ := Option.map_eq_some_iff.1 h
    cases he
    have := ih hq
    simp only [List.length_cons]
    omega
  | case5 => cases h; simp
  | case6 => cases h; simp
  | case7 gap s r _ _ _ ih =>
    obtain ⟨q, hq, he⟩ := Option.map_eq_some_iff.1 h
    cases he
    exact Nat.lt_succ_of_lt (ih hq)

theorem doubleQuoted?_length_lt {gap : Gap} {ss rest : List Spot} {text : List Char}
    (h : doubleQuoted? gap ss = some (text, rest)) : rest.length < ss.length := by
  fun_induction doubleQuoted? gap ss generalizing text rest with
  | case1 => cases h
  | case2 gap s r _ ih => exact Nat.lt_succ_of_lt (ih h)
  | case3 => cases h
  | case4 => cases h; simp
  | case5 => cases h
  | case6 gap s _ _ _ _ t r' _ ih =>
    obtain ⟨q, hq, he⟩ := Option.map_eq_some_iff.1 h
    cases he
    have := ih hq
    simp only [List.length_cons]
    omega
  | case7 =>
    rename_i hread _ ih
    obtain ⟨q, hq, he⟩ := Option.map_eq_some_iff.1 h
    cases he
    have := ih hq
    have := escape?_length_le hread
    simp only [List.length_cons]
    omega
  | case8 => cases h
  | case9 gap s r _ _ _ _ ih =>
    obtain ⟨q, hq, he⟩ := Option.map_eq_some_iff.1 h
    cases he
    exact Nat.lt_succ_of_lt (ih hq)

end DesignVars.Yaml
