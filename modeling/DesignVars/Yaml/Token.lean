import DesignVars.Yaml.Scalar

/-!
# YAML tokens

The columns at which lines begin tell where lists and maps begin and end; a token for each of these
makes that explicit. That something is the key of a map shows only at the colon behind it, so a
token before it is added then.

* `Token`: marks, scalars, and where collections begin and end;
* `Candidate`, `Layout`: what may turn out to be a key, and where reading has got to;
* `Layout.take?`: one more token; **`Layout.take?_length_le`**: every token takes characters;
* **`tokens?`**: the tokens of a text.
-/

namespace DesignVars.Yaml

inductive Token where
  /-- Three hyphens, which begin a document. -/
  | documentStart
  /-- Three dots, which end one. -/
  | documentEnd
  /-- A list begins whose items stand at a column of their own. -/
  | beginList
  /-- A map begins whose keys stand at a column of their own. -/
  | beginMap
  /-- The innermost list or map of this kind ends. -/
  | finish
  | openBracket
  | closeBracket
  | openBrace
  | closeBrace
  | comma
  | item
  | key
  | value
  | scalar (text : String) (plain : Bool)
deriving DecidableEq, Repr

/-! ## Keys -/

/-- A place where the key of a field may have begun. -/
structure Candidate where
  line : Nat
  column : Nat
  /-- Nothing but a key can stand there. -/
  needed : Bool
  /-- The number of tokens before it. -/
  before : Nat

/-- The greatest number of characters between the beginning of a key and its colon. -/
def longestKey : Nat := 1024

/-- What is left of a candidate at a later place: nothing on another line or too far to the right,
and no result if a key was needed. -/
def Candidate.at? (here : Spot) : Option Candidate → Option (Option Candidate)
  | none => some none
  | some k =>
    if k.line < here.line || k.column + longestKey < here.column then
      if k.needed then none else some none
    else some (some k)

/-! ## The layout -/

/-- Where reading has got to. -/
structure Layout where
  /-- The tokens so far, last first. -/
  tokens : List Token
  /-- The columns of the lists and maps that have one and are still open, innermost first. -/
  columns : List Nat
  /-- A key may begin here. -/
  keyMayBegin : Bool
  /-- The place that may turn out to be a key between the innermost brackets or braces. -/
  candidate : Option Candidate
  /-- The same for what is around them. -/
  outer : List (Option Candidate)

namespace Layout

def start : Layout := ⟨[], [], true, none, []⟩

/-- Holds between brackets or braces. -/
def inFlow (l : Layout) : Bool := !l.outer.isEmpty

def emit (t : Token) (l : Layout) : Layout := { l with tokens := t :: l.tokens }

/-- The column that a continued scalar has to reach. -/
def indent (l : Layout) : Nat := (l.columns.head?.map (· + 1)).getD 0

/-- Holds where a list or map at a column would be a new one. -/
def isDeeper (l : Layout) (column : Nat) : Bool :=
  !l.inFlow && l.columns.head?.all (· < column)

/-- Ends the lists and maps whose columns do not pass a test. -/
def closeUntil (keep : Nat → Bool) (l : Layout) : Layout :=
  if l.inFlow then l
  else { l with
    tokens := List.replicate (l.columns.takeWhile fun c => !keep c).length .finish ++ l.tokens
    columns := l.columns.dropWhile fun c => !keep c }

/-- Begins a list or map at a column if it is a new one. -/
def openAt (t : Token) (column : Nat) (l : Layout) : Layout :=
  if l.isDeeper column then
    { l with tokens := t :: l.tokens, columns := column :: l.columns }
  else l

/-- Gives the candidate up, unless a key was needed. -/
def dropCandidate? (l : Layout) : Option Layout :=
  if l.candidate.any (·.needed) then none else some { l with candidate := none }

/-- Makes this place the candidate if a key may begin here. -/
def saveCandidate? (here : Spot) (l : Layout) : Option Layout :=
  if l.keyMayBegin then
    let needed := !l.inFlow && l.columns.head? == some here.column
    l.dropCandidate?.map fun l =>
      { l with candidate := some ⟨here.line, here.column, needed, l.tokens.length⟩ }
  else some l

/-- A place is reached: the candidates that are too far away are given up, and the lists and maps
to the right of it end. -/
def reach? (here : Spot) (l : Layout) : Option Layout := do
  let candidate ← Candidate.at? here l.candidate
  let outer ← l.outer.mapM (Candidate.at? here)
  some ({ l with candidate, outer }.closeUntil (· ≤ here.column))

/-- The end is reached: all lists and maps end. -/
def finish? (l : Layout) : Option (List Token) :=
  (l.closeUntil fun _ => false).dropCandidate?.map fun l => l.tokens.reverse

/-! ## Single tokens -/

def scalar? (here : Spot) (text : List Char) (plain lineEnded : Bool) (l : Layout) :
    Option Layout :=
  (l.saveCandidate? here).map fun l =>
    { l with keyMayBegin := lineEnded }.emit (.scalar (String.ofList text) plain)

/-- The beginning or the end of a document. -/
def document? (t : Token) (l : Layout) : Option Layout :=
  (l.closeUntil fun _ => false).dropCandidate?.map fun l =>
    { l with keyMayBegin := false }.emit t

def openFlow? (t : Token) (here : Spot) (l : Layout) : Option Layout :=
  (l.saveCandidate? here).map fun l =>
    { l with keyMayBegin := true, candidate := none, outer := l.candidate :: l.outer }.emit t

def closeFlow? (t : Token) (l : Layout) : Option Layout :=
  l.dropCandidate?.map fun l =>
    { l with
      keyMayBegin := false
      candidate := l.outer.head?.getD l.candidate
      outer := l.outer.tail }.emit t

def comma? (l : Layout) : Option Layout :=
  l.dropCandidate?.map fun l => { l with keyMayBegin := true }.emit .comma

/-- The hyphen before an item. -/
def item? (here : Spot) (l : Layout) : Option Layout :=
  if !l.inFlow && !l.keyMayBegin then none
  else (l.openAt .beginList here.column).dropCandidate?.map fun l =>
    { l with keyMayBegin := true }.emit .item

/-- The question mark before a key. -/
def key? (here : Spot) (l : Layout) : Option Layout :=
  if !l.inFlow && !l.keyMayBegin then none
  else (l.openAt .beginMap here.column).dropCandidate?.map fun l =>
    { l with keyMayBegin := !l.inFlow }.emit .key

/-- The colon before a value. If there is a candidate, it is the key, and what has been read of it
stays behind the tokens that begin the map and the key. -/
def value? (here : Spot) (l : Layout) : Option Layout :=
  match l.candidate with
  | some k =>
    let since := l.tokens.take (l.tokens.length - k.before)
    let l' := { l with tokens := l.tokens.drop (l.tokens.length - k.before) }.openAt .beginMap
      k.column
    some ({ l' with
      tokens := since ++ Token.key :: l'.tokens
      keyMayBegin := false
      candidate := none }.emit .value)
  | none =>
    if !l.inFlow && !l.keyMayBegin then none
    else some ({ l.openAt .beginMap here.column with keyMayBegin := !l.inFlow }.emit .value)

/-- Characters other than quotes and marks that begin no plain scalar. -/
def isReserved (c : Char) : Bool :=
  "&*!|>%@".toList.contains c || c == '\x60' || isBlank c || isBreak c

/-- The token at a place, and what follows it. -/
def take? (l : Layout) (here : Spot) (r : List Spot) : Option (Layout × List Spot) :=
  match marker? '-' (here :: r), marker? '.' (here :: r) with
  | some rest, _ => (l.document? .documentStart).map fun l => (l, rest)
  | none, some rest => (l.document? .documentEnd).map fun l => (l, rest)
  | none, none =>
    match here.char with
    | '[' => (l.openFlow? .openBracket here).map fun l => (l, r)
    | '\x7b' => (l.openFlow? .openBrace here).map fun l => (l, r)
    | ']' => (l.closeFlow? .closeBracket).map fun l => (l, r)
    | '\x7d' => (l.closeFlow? .closeBrace).map fun l => (l, r)
    | ',' => l.comma?.map fun l => (l, r)
    | '\'' =>
      match singleQuoted? .none r with
      | some (text, rest) => (l.scalar? here text false false).map fun l => (l, rest)
      | none => none
    | '"' =>
      match doubleQuoted? .none r with
      | some (text, rest) => (l.scalar? here text false false).map fun l => (l, rest)
      | none => none
    | c =>
      if c = '-' ∧ wordEnds r then (l.item? here).map fun l => (l, r)
      else if c = '?' ∧ (l.inFlow || wordEnds r) then (l.key? here).map fun l => (l, r)
      else if c = ':' ∧ (l.inFlow || wordEnds r) then (l.value? here).map fun l => (l, r)
      else if isReserved c then none
      else
        match plain? l.inFlow l.indent .none r with
        | some p =>
          (l.scalar? here (c :: p.text) true p.lineEnded).map fun l => (l, p.rest)
        | none => none

/-- **Every token takes characters.** -/
theorem take?_length_le {l l' : Layout} {here : Spot} {r rest : List Spot}
    (h : l.take? here r = some (l', rest)) : rest.length ≤ r.length := by
  have shorter : ∀ {c}, marker? c (here :: r) = some rest → rest.length ≤ r.length :=
    fun h => Nat.le_of_lt_succ (marker?_length_lt h)
  unfold take? at h
  repeat' split at h
  all_goals first
    | cases h
    | (obtain ⟨_, _, he⟩ := Option.map_eq_some_iff.1 h; cases he)
  all_goals first
    | exact Nat.le_refl _
    | exact shorter (by assumption)
    | exact Nat.le_of_lt (singleQuoted?_length_lt (by assumption))
    | exact Nat.le_of_lt (doubleQuoted?_length_lt (by assumption))
    | exact plain?_length_le (by assumption)

end Layout

/-! ## Whole texts -/

/-- What comes after blanks, comments and line ends, and whether a key may begin there: it may
behind a line end, except between brackets. Where it may, a tab is not skipped. -/
def skipTrivia (flow comment keyMayBegin : Bool) : List Spot → Bool × List Spot
  | [] => (keyMayBegin, [])
  | s :: r =>
    if isBreak s.char then skipTrivia flow false (keyMayBegin || !flow) r
    else if comment || s.char == '#' then skipTrivia flow true keyMayBegin r
    else if s.char == ' ' || (s.char == '\t' && (flow || !keyMayBegin)) ||
        (s.char == byteOrderMark && s.column == 0) then
      skipTrivia flow false keyMayBegin r
    else (keyMayBegin, s :: r)

theorem skipTrivia_length_le (flow comment keyMayBegin : Bool) (ss : List Spot) :
    (skipTrivia flow comment keyMayBegin ss).2.length ≤ ss.length := by
  fun_induction skipTrivia flow comment keyMayBegin ss with
  | case1 => exact Nat.le_refl _
  | case2 _ _ _ _ _ ih => exact Nat.le_succ_of_le ih
  | case3 _ _ _ _ _ _ ih => exact Nat.le_succ_of_le ih
  | case4 _ _ _ _ _ _ _ ih => exact Nat.le_succ_of_le ih
  | case5 => exact Nat.le_refl _

/-- The tokens so far and those of the rest. -/
def Layout.run? (l : Layout) (ss : List Spot) : Option (List Token) :=
  match _skip : skipTrivia l.inFlow false l.keyMayBegin ss with
  | (_, []) => l.finish?
  | (keyMayBegin, here :: r) =>
    match { l with keyMayBegin }.reach? here with
    | none => none
    | some l₁ =>
      match _take : l₁.take? here r with
      | none => none
      | some (l₂, rest) => l₂.run? rest
termination_by ss.length
decreasing_by
  have h₁ := Layout.take?_length_le _take
  have h₂ := skipTrivia_length_le l.inFlow false l.keyMayBegin ss
  simp only [_skip, List.length_cons] at h₂
  omega

def tokens? (text : String) : Option (List Token) := (spots? text).bind Layout.start.run?

end DesignVars.Yaml
