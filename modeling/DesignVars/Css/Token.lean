import DesignVars.Decimal.Notation
import DesignVars.Decimal.Numeral

/-!
# Stylesheet tokens

The tokens of CSS Syntax, level 3, read from a list of characters. White space and comments only
separate tokens; a text that ends inside a string, an escape or a comment is closed there. What
stands between a bracket and its partner is gathered into a block: a closing bracket that is not
the partner of the innermost open one is an ordinary token, and all blocks that are still open end
with the text.

* `skipTrivia`: what follows the white space and comments at the front;
* `readName`, `readQuoted`, `readNumber`: names, strings and numbers, with their escapes;
* `readToken`: the first token of a text and what follows it;
* **`tokens`**: all tokens of a text; every step consumes a character (`readToken_suffix`);
* `Component`: a token or a block; `Nesting`: the open blocks while tokens are added one by one;
* **`components`**: the tree of a text.
-/

namespace DesignVars.Css

open Text Decimal

/-! ## White space and comments -/

/-- What follows the first `*/`, and whether there is one. -/
def afterComment : List Char → List Char × Bool
  | '*' :: '/' :: r => (r, true)
  | _ :: r => afterComment r
  | [] => ([], false)

theorem afterComment_suffix (cs : List Char) : (afterComment cs).1 <:+ cs := by
  fun_induction afterComment cs with
  | case1 r => exact List.suffix_append ['*', '/'] r
  | case2 c r h ih => exact ih.trans (List.suffix_cons c r)
  | case3 => exact List.suffix_rfl

/-- What follows the white space and the comments at the front. -/
def skipTrivia : List Char → List Char
  | [] => []
  | '/' :: '*' :: r => skipTrivia (afterComment r).1
  | c :: r => if isSpace c then skipTrivia r else c :: r
termination_by cs => cs.length
decreasing_by
  · have := (afterComment_suffix r).length_le; simp; omega
  · simp

theorem skipTrivia_suffix (cs : List Char) : skipTrivia cs <:+ cs := by
  fun_induction skipTrivia cs with
  | case1 => exact List.suffix_rfl
  | case2 r ih => exact (ih.trans (afterComment_suffix r)).trans (List.suffix_append ['/', '*'] r)
  | case3 c r h hc ih => exact ih.trans (List.suffix_cons c r)
  | case4 => exact List.suffix_rfl

/-! ## Names and escapes -/

/-- The character for what cannot be read. -/
def replacement : Char := '\uFFFD'

/-- Line feed, form feed or carriage return. -/
def isNewline (c : Char) : Bool := c == '\n' || c == '\x0c' || c == '\r'

/-- Holds when a line break is at the front. -/
def startsLine : List Char → Bool
  | c :: _ => isNewline c
  | [] => false

/-- What follows one white-space character; a carriage return and a line feed count as one. -/
def dropSpace : List Char → List Char
  | '\r' :: '\n' :: r => r
  | c :: r => if isSpace c then r else c :: r
  | [] => []

theorem dropSpace_suffix (cs : List Char) : dropSpace cs <:+ cs := by
  fun_cases dropSpace cs with
  | case1 r => exact List.suffix_append ['\r', '\n'] r
  | case2 c r => exact List.suffix_cons c r
  | case3 => exact List.suffix_rfl
  | case4 => exact List.suffix_rfl

/-- Up to `n` hexadecimal digits, as a number, and what follows them. -/
def readHex : Nat → Nat → List Char → Nat × List Char
  | 0, acc, cs => (acc, cs)
  | _ + 1, acc, [] => (acc, [])
  | n + 1, acc, c :: r =>
    match hexValue? c with
    | some d => readHex n (16 * acc + d) r
    | none => (acc, c :: r)

theorem readHex_suffix (n acc : Nat) (cs : List Char) : (readHex n acc cs).2 <:+ cs := by
  fun_induction readHex n acc cs with
  | case1 => exact List.suffix_rfl
  | case2 => exact List.suffix_rfl
  | case3 n acc c r d hd ih => exact ih.trans (List.suffix_cons c r)
  | case4 => exact List.suffix_rfl

/-- The character with a given number; zero and what is no character are replaced. -/
def charOfNumber (n : Nat) : Char :=
  if h : n.isValidChar then (if n = 0 then replacement else Char.ofNatAux n h) else replacement

/-- The character that an escape stands for, read after its backslash: a hexadecimal number with
at most six digits and one white-space character, or the character itself. -/
def readEscape : List Char → Char × List Char
  | [] => (replacement, [])
  | c :: r =>
    if isHexDigit c then
      let h := readHex 6 0 (c :: r)
      (charOfNumber h.1, dropSpace h.2)
    else (if c = '\x00' then replacement else c, r)

theorem readEscape_suffix (cs : List Char) : (readEscape cs).2 <:+ cs := by
  unfold readEscape
  split
  · exact List.suffix_rfl
  · rename_i c r
    split
    · exact (dropSpace_suffix _).trans (readHex_suffix _ _ _)
    · exact List.suffix_cons c r

/-- Characters that a name may begin with, the backslash aside. -/
def startsName (c : Char) : Bool := isLetter c || c == '_' || c == '\x00' || 0x80 ≤ c.toNat

/-- Characters that a name may hold, the backslash aside. -/
def isNameChar (c : Char) : Bool := startsName c || isDigit c || c == '-'

/-- The longest name at the front, with its escapes decoded. -/
def readName : List Char → List Char × List Char
  | [] => ([], [])
  | c :: r =>
    if c = '\\' then
      if startsLine r then ([], c :: r)
      else
        let e := readEscape r
        let n := readName e.2
        (e.1 :: n.1, n.2)
    else if isNameChar c then
      let n := readName r
      ((if c = '\x00' then replacement else c) :: n.1, n.2)
    else ([], c :: r)
termination_by cs => cs.length
decreasing_by
  · have := (readEscape_suffix r).length_le; simp; omega
  · simp

theorem readName_suffix (cs : List Char) : (readName cs).2 <:+ cs := by
  fun_induction readName cs with
  | case1 => exact List.suffix_rfl
  | case2 => exact List.suffix_rfl
  | case3 r h e n ih => exact (ih.trans (readEscape_suffix r)).trans (List.suffix_cons _ r)
  | case4 c r h hc n ih => exact ih.trans (List.suffix_cons c r)
  | case5 => exact List.suffix_rfl

/-- Holds when a name is at the front. A backslash after a hyphen always counts. -/
def atName : List Char → Bool
  | [] => false
  | '-' :: r => match r with
    | d :: _ => startsName d || d == '-' || d == '\\'
    | [] => false
  | '\\' :: r => !startsLine r
  | c :: _ => startsName c

/-! ## Strings -/

/-- The rest of a string that began with `quote`, what follows it, and whether it is good: a line
break that is not escaped makes it a bad one. -/
def readQuoted (quote : Char) : List Char → List Char × List Char × Bool
  | [] => ([], [], true)
  | c :: r =>
    if c = quote then ([], r, true)
    else if isNewline c then ([], c :: r, false)
    else if c = '\\' then
      if r = [] then ([], [], true)
      else if startsLine r then readQuoted quote (dropSpace r)
      else
        let e := readEscape r
        let q := readQuoted quote e.2
        (e.1 :: q.1, q.2)
    else
      let q := readQuoted quote r
      ((if c = '\x00' then replacement else c) :: q.1, q.2)
termination_by cs => cs.length
decreasing_by
  · have := (dropSpace_suffix r).length_le; simp; omega
  · have := (readEscape_suffix r).length_le; simp; omega
  · simp

theorem readQuoted_suffix (quote : Char) (cs : List Char) :
    (readQuoted quote cs).2.1 <:+ cs := by
  fun_induction readQuoted quote cs with
  | case1 => exact List.suffix_rfl
  | case2 r => exact List.suffix_cons quote r
  | case3 => exact List.suffix_rfl
  | case4 => exact List.nil_suffix
  | case5 r _ _ _ _ ih => exact (ih.trans (dropSpace_suffix r)).trans (List.suffix_cons _ r)
  | case6 r _ _ _ _ _ _ ih => exact (ih.trans (readEscape_suffix r)).trans (List.suffix_cons _ r)
  | case7 c r _ _ _ q ih => exact ih.trans (List.suffix_cons c r)

/-! ## Unquoted addresses -/

/-- Characters that spoil an unquoted address. -/
def spoilsUrl (c : Char) : Bool :=
  let n := c.toNat
  (1 ≤ n && n ≤ 8) || n == 0xB || (0xE ≤ n && n ≤ 0x1F) || n == 0x7F ||
  c == '"' || c == '\'' || c == '('

/-- What follows a spoilt address: everything up to its closing parenthesis is part of it. -/
def skipBadUrl : List Char → List Char
  | [] => []
  | ')' :: r => r
  | '\\' :: ')' :: r => skipBadUrl r
  | '\\' :: '\\' :: r => skipBadUrl r
  | _ :: r => skipBadUrl r

theorem skipBadUrl_suffix (cs : List Char) : skipBadUrl cs <:+ cs := by
  fun_induction skipBadUrl cs with
  | case1 => exact List.suffix_rfl
  | case2 r => exact List.suffix_cons _ r
  | case3 r ih => exact ih.trans (List.suffix_append ['\\', ')'] r)
  | case4 r ih => exact ih.trans (List.suffix_append ['\\', '\\'] r)
  | case5 c r _ _ _ ih => exact ih.trans (List.suffix_cons c r)

/-- What follows an address of which only the closing parenthesis is missing. -/
def skipUrlEnd : List Char → List Char
  | [] => []
  | c :: r =>
    if c = ')' then r else if isSpace c then skipUrlEnd r else skipBadUrl r

theorem skipUrlEnd_suffix (cs : List Char) : skipUrlEnd cs <:+ cs := by
  fun_induction skipUrlEnd cs with
  | case1 => exact List.suffix_rfl
  | case2 r => exact List.suffix_cons _ r
  | case3 c r _ _ ih => exact ih.trans (List.suffix_cons c r)
  | case4 c r => exact (skipBadUrl_suffix r).trans (List.suffix_cons c r)

/-- What follows an unquoted address, from its first printable character on. -/
def skipUrl : List Char → List Char
  | [] => []
  | c :: r =>
    if isSpace c then skipUrlEnd r
    else if c = ')' then r
    else if spoilsUrl c then skipBadUrl r
    else if c = '\\' then
      if startsLine r then skipBadUrl r else skipUrl (readEscape r).2
    else skipUrl r
termination_by cs => cs.length
decreasing_by
  · have := (readEscape_suffix r).length_le; simp; omega
  · simp

theorem skipUrl_suffix (cs : List Char) : skipUrl cs <:+ cs := by
  fun_induction skipUrl cs with
  | case1 => exact List.suffix_rfl
  | case2 c r => exact (skipUrlEnd_suffix r).trans (List.suffix_cons c r)
  | case3 => exact List.suffix_cons _ _
  | case4 c r => exact (skipBadUrl_suffix r).trans (List.suffix_cons c r)
  | case5 r => exact (skipBadUrl_suffix r).trans (List.suffix_cons _ r)
  | case6 r _ _ _ _ ih => exact (ih.trans (readEscape_suffix r)).trans (List.suffix_cons _ r)
  | case7 c r _ _ _ _ ih => exact ih.trans (List.suffix_cons c r)

/-! ## Numbers -/

/-- Holds when a number is at the front: an optional sign, then a digit or a point and a digit. -/
def atNumber : List Char → Bool
  | c :: d :: e :: _ =>
    isDigit c || (c == '.' && isDigit d) ||
      ((c == '+' || c == '-') && (isDigit d || (d == '.' && isDigit e)))
  | [c, d] => isDigit c || (c == '.' && isDigit d) || ((c == '+' || c == '-') && isDigit d)
  | [c] => isDigit c
  | [] => false

/-- The digits after a point, if a point with a digit after it is at the front. -/
def takeFraction : List Char → List Char × List Char
  | '.' :: d :: r => if isDigit d then takeDigits (d :: r) else ([], '.' :: d :: r)
  | cs => ([], cs)

/-- The power of ten at the front; without one, zero. -/
def takeExponent : List Char → Int × List Char
  | c :: d :: r =>
    if c == 'e' || c == 'E' then
      let s := takeSign (d :: r)
      let ds := takeDigits s.2
      if ds.1.isEmpty then (0, c :: d :: r)
      else (if s.1 then -(natOfDigits ds.1 : Int) else natOfDigits ds.1, ds.2)
    else (0, c :: d :: r)
  | cs => (0, cs)

theorem takeFraction_suffix (cs : List Char) : (takeFraction cs).2 <:+ cs := by
  fun_cases takeFraction cs with
  | case1 d r => exact (takeDigits_suffix _).trans (List.suffix_cons _ _)
  | case2 => exact List.suffix_rfl
  | case3 => exact List.suffix_rfl

theorem takeExponent_suffix (cs : List Char) : (takeExponent cs).2 <:+ cs := by
  fun_cases takeExponent cs with
  | case1 => exact List.suffix_rfl
  | case2 c d r _ s ds =>
    exact ((takeDigits_suffix _).trans (takeSign_suffix _)).trans (List.suffix_cons _ _)
  | case3 => exact List.suffix_rfl
  | case4 => exact List.suffix_rfl

/-- The digits as a double, one after the other. -/
def wholeValue (ds : List Char) : Float :=
  ds.foldl (fun v d => v * 10.0 + Float.ofNat (digitValue d)) 0.0

/-- The digits after a point as a double: each adds its share, the shares tenths of one another. -/
def fractionValue (ds : List Char) : Float :=
  (ds.foldl (fun (v, share) d => (v + Float.ofNat (digitValue d) * share, share * 0.1))
    ((0.0, 0.1) : Float × Float)).1

/-- A number token before its unit: its value in double precision and whether it has a sign. -/
structure Number where
  value : Float
  signed : Bool

/-- The number at the front and what follows it. -/
def readNumber (cs : List Char) : Number × List Char :=
  let s := takeSign cs
  let signed := s.2.length != cs.length
  let whole := takeDigits s.2
  let fraction := takeFraction whole.2
  let exponent := takeExponent fraction.2
  let size := wholeValue whole.1 + fractionValue fraction.1
  let value := (if s.1 then -1.0 else 1.0) * size
  let scaled := if exponent.2.length = fraction.2.length then value
    else value * powerOfTen exponent.1
  (⟨scaled, signed⟩, exponent.2)

theorem takeFraction_length_lt {d : Char} {r : List Char} (hp : isDigit '.' = false)
    (h : isDigit d = true) :
    (takeFraction (takeDigits ('.' :: d :: r)).2).2.length < ('.' :: d :: r).length := by
  simp only [takeDigits, List.dropWhile_cons, hp, Bool.false_eq_true, if_false]
  rw [takeFraction, if_pos h]
  exact Nat.lt_succ_of_le (takeDigits_suffix _).length_le

theorem readNumber_suffix (cs : List Char) : (readNumber cs).2 <:+ cs :=
  (((takeExponent_suffix _).trans (takeFraction_suffix _)).trans (takeDigits_suffix _)).trans
    (takeSign_suffix _)

theorem readNumber_length_lt {cs : List Char} (h : atNumber cs = true) :
    (readNumber cs).2.length < cs.length := by
  refine Nat.lt_of_le_of_lt (takeExponent_suffix _).length_le ?_
  show (takeFraction (takeDigits (takeSign cs).2).2).2.length < cs.length
  cases cs with
  | nil => simp [atNumber] at h
  | cons c r =>
    by_cases hs : c = '-' ∨ c = '+'
    · refine Nat.lt_of_le_of_lt ((takeFraction_suffix _).trans
        (takeDigits_suffix _)).length_le ?_
      rcases hs with rfl | rfl <;> simp [takeSign]
    · have hsign : takeSign (c :: r) = (false, c :: r) := by
        simp only [not_or] at hs
        simp [takeSign, hs]
      rw [hsign]
      by_cases hd : isDigit c = true
      · exact Nat.lt_of_le_of_lt (takeFraction_suffix _).length_le
          (takeDigits_length_lt (by simp [takeDigits, hd]))
      · simp only [Bool.not_eq_true] at hd
        obtain ⟨d, t, rfl, rfl, hdd⟩ : ∃ d t, c = '.' ∧ r = d :: t ∧ isDigit d = true := by
          have hp : c ≠ '+' ∧ c ≠ '-' := ⟨fun h => hs (.inr h), fun h => hs (.inl h)⟩
          cases r with
          | nil => simp [atNumber, hd] at h
          | cons d t => cases t <;> simpa [atNumber, hd, hp] using h
        exact takeFraction_length_lt hd hdd

/-! ## Tokens -/

inductive Opening where
  | function (name : String)
  | round
  | square
  | curly
deriving DecidableEq, Repr

inductive Closing where
  | round
  | square
  | curly
deriving DecidableEq, Repr

/-- A function ends like a parenthesis. -/
def Opening.closing : Opening → Closing
  | .function _ | .round => .round
  | .square => .square
  | .curly => .curly

/-- A token. Values of numbers are rounded to single precision, and a percentage holds the
fraction it stands for. -/
inductive Token where
  | ident (name : String)
  | atKeyword (name : String)
  | hash (name : String)
  | quoted (text : String)
  | badString
  | url
  | number (value : Float) (signed : Bool)
  | percentage (fraction : Float) (signed : Bool)
  | dimension (value : Float) (signed : Bool) (unit : String)
  | delim (c : Char)
  /-- One of the marks of two or more characters. -/
  | mark (text : String)
  | colon
  | semicolon
  | comma
  | opening (o : Opening)
  | closing (c : Closing)
deriving DecidableEq

/-- The double that a single-precision number stands for after rounding to it: 24 binary digits of
which none counts less than `2 ^ -149`, and what reaches `2 ^ 128` is infinite. -/
def toSingle (x : Float) : Float :=
  if x.isFinite then
    let b := Binary.ofFloat x
    let q := max (b.q + b.m.log2 - 23) (-149)
    let m := roundDiv b.m (Nat.pow 2 (q - b.q).toNat) .toEven
    withSign x (if Nat.pow 2 128 ≤ m * Nat.pow 2 q.toNat then infinite else ofBinary m q)
  else x

/-- The number token at the front: a number, a percentage, or a number with a unit. -/
def readNumeric (cs : List Char) : Token × List Char :=
  let n := readNumber cs
  match n.2 with
  | '%' :: r => (.percentage (toSingle (n.1.value / 100.0)) n.1.signed, r)
  | r =>
    if atName r then
      let u := readName r
      (.dimension (toSingle n.1.value) n.1.signed (String.ofList u.1), u.2)
    else (.number (toSingle n.1.value) n.1.signed, r)

theorem readNumeric_suffix (cs : List Char) : (readNumeric cs).2 <:+ cs := by
  have hn := readNumber_suffix cs
  simp only [readNumeric]
  split
  · rename_i r hr
    rw [hr] at hn
    exact (List.suffix_cons _ r).trans hn
  · split
    · exact (readName_suffix _).trans hn
    · exact hn

theorem readNumeric_length_lt {cs : List Char} (h : atNumber cs = true) :
    (readNumeric cs).2.length < cs.length := by
  have hn := readNumber_length_lt h
  simp only [readNumeric]
  split
  · rename_i r hr
    rw [hr] at hn
    simp only [List.length_cons] at hn ⊢
    omega
  · split
    · exact Nat.lt_of_le_of_lt (readName_suffix _).length_le hn
    · exact hn

/-- The name token at the front: an identifier, a function, or an unquoted address. -/
def readIdentLike (cs : List Char) : Token × List Char :=
  let n := readName cs
  let name := String.ofList n.1
  match n.2 with
  | '(' :: r =>
    if sameLetters name "url" then
      match r.dropWhile isSpace with
      | '"' :: _ | '\'' :: _ => (.opening (.function name), r)
      | body => (.url, skipUrl body)
    else (.opening (.function name), r)
  | r => (.ident name, r)

/-- The marks of more than one character. -/
def marks : List String := ["-->", "<!--", "$=", "*=", "^=", "|=", "~="]

/-- The mark at the front and what follows it. -/
def readMark? (cs : List Char) : Option (String × List Char) :=
  marks.findSome? fun m => (m.toList.isPrefixOf? cs).map fun r => (m, r)

/-- The token that a single character is by itself. -/
def readSingle (c : Char) : Token :=
  match c with
  | '(' => .opening .round
  | '[' => .opening .square
  | '{' => .opening .curly
  | ')' => .closing .round
  | ']' => .closing .square
  | '}' => .closing .curly
  | ':' => .colon
  | ';' => .semicolon
  | ',' => .comma
  | c => .delim c

/-- The first token of `c :: r`, which starts with neither white space nor a comment, and what
follows it. -/
def readToken (c : Char) (r : List Char) : Token × List Char :=
  if atNumber (c :: r) then readNumeric (c :: r)
  else if c = '"' || c = '\'' then
    let q := readQuoted c r
    (if q.2.2 then .quoted (String.ofList q.1) else .badString, q.2.1)
  else if c = '#' && (atName r || r.head?.any fun d => isDigit d || d == '-') then
    let n := readName r
    (.hash (String.ofList n.1), n.2)
  else if c = '@' && atName r then
    let n := readName r
    (.atKeyword (String.ofList n.1), n.2)
  else match readMark? (c :: r) with
    | some (m, r) => (.mark m, r)
    | none => if atName (c :: r) then readIdentLike (c :: r) else (readSingle c, r)

theorem readMark?_suffix {c : Char} {cs : List Char} {m : String} {r : List Char}
    (h : readMark? (c :: cs) = some (m, r)) : r <:+ cs := by
  obtain ⟨m', hm, h⟩ := List.exists_of_findSome?_eq_some h
  obtain ⟨r', hr, h⟩ := Option.map_eq_some_iff.1 h
  cases h
  have hne : m.toList ≠ [] := by
    simp only [marks, List.mem_cons, List.not_mem_nil, or_false] at hm
    rcases hm with rfl | rfl | rfl | rfl | rfl | rfl | rfl <;> decide
  obtain ⟨d, ds, hd⟩ := List.exists_cons_of_ne_nil hne
  rw [hd, isPrefixOf?_cons] at hr
  split at hr
  · exact suffix_of_isPrefixOf? hr
  · cases hr

theorem readName_suffix_tail {c : Char} {r : List Char} (h : atName (c :: r) = true) :
    (readName (c :: r)).2 <:+ r := by
  unfold readName
  by_cases hc : c = '\\'
  · subst hc
    have : startsLine r = false := by simpa [atName] using h
    simp only [if_true, this, Bool.false_eq_true, if_false]
    exact (readName_suffix _).trans (readEscape_suffix _)
  · have : isNameChar c = true := by
      by_cases hm : c = '-'
      · subst hm; decide
      · have : startsName c = true := by
          unfold atName at h
          split at h <;> simp_all
        simp [isNameChar, this]
    simp only [hc, if_false, this, if_true]
    exact readName_suffix _

theorem readIdentLike_suffix {c : Char} {r : List Char} (h : atName (c :: r) = true) :
    (readIdentLike (c :: r)).2 <:+ r := by
  have hn := readName_suffix_tail h
  simp only [readIdentLike]
  split
  · rename_i s hs
    rw [hs] at hn
    have hr : s <:+ r := (List.suffix_cons _ s).trans hn
    split
    · split
      · exact hr
      · exact hr
      · exact ((skipUrl_suffix _).trans (List.dropWhile_suffix isSpace)).trans hr
    · exact hr
  · exact hn

/-- **A token takes at least its first character.** -/
theorem readToken_suffix (c : Char) (r : List Char) : (readToken c r).2 <:+ r := by
  unfold readToken
  split
  · rename_i h
    refine (List.suffix_cons_iff.1 (readNumeric_suffix _)).resolve_left fun he => ?_
    exact absurd (congrArg List.length he) (Nat.ne_of_lt (readNumeric_length_lt h))
  · split
    · exact readQuoted_suffix _ _
    · split
      · exact readName_suffix _
      · split
        · exact readName_suffix _
        · split
          · rename_i h; exact readMark?_suffix h
          · split
            · rename_i h; exact readIdentLike_suffix h
            · exact List.suffix_rfl

def tokens (cs : List Char) : List Token :=
  match _front : skipTrivia cs with
  | [] => []
  | c :: r =>
    let t := readToken c r
    t.1 :: tokens t.2
termination_by cs.length
decreasing_by
  have h1 := (skipTrivia_suffix cs).length_le
  have h2 := (readToken_suffix c r).length_le
  rw [_front, List.length_cons] at h1
  omega

/-! ## Blocks -/

/-- A token, or a block with what it holds. -/
inductive Component where
  | token (t : Token)
  | block (o : Opening) (body : List Component)

/-- What has been read so far: the components of the innermost open block, last first, and for
each open block, innermost first, its opening and the components before it, last first. -/
structure Nesting where
  inner : List Component := []
  frames : List (Opening × List Component) := []

/-- Reading goes on inside a new block. -/
def Nesting.enter (n : Nesting) (o : Opening) : Nesting := ⟨[], (o, n.inner) :: n.frames⟩

def Nesting.add (n : Nesting) (c : Component) : Nesting := { n with inner := c :: n.inner }

/-- Closes the innermost block if `c` is its partner. -/
def Nesting.leave (n : Nesting) (c : Closing) : Nesting :=
  match n.frames with
  | (o, before) :: fs =>
    if o.closing = c then ⟨.block o n.inner.reverse :: before, fs⟩ else n.add (.token (.closing c))
  | [] => n.add (.token (.closing c))

def Nesting.step (n : Nesting) : Token → Nesting
  | .opening o => n.enter o
  | .closing c => n.leave c
  | t => n.add (.token t)

/-- The components of the whole text, once all open blocks are closed. -/
def Nesting.finish (n : Nesting) : List Component :=
  (n.frames.foldl (fun inner f => .block f.1 inner.reverse :: f.2) n.inner).reverse

def ofTokens (ts : List Token) : List Component := (ts.foldl Nesting.step {}).finish

def components (text : String) : List Component := ofTokens (tokens text.toList)

end DesignVars.Css
