import DesignVars.Decimal.Notation
import DesignVars.Decimal.Numeral

/-!
# JSON values

* `Json.Chars`: the text of a string; a string with half of a surrogate pair stands for no text;
* `Json`: a value. Numbers are kept as they are written, and fields in their order;
* `Literal`, `takeLiteral?`: the grammar of number literals;
* **`floatOfNumber?`**: the value of a literal. Digits are gathered in a 64-bit number and then
  scaled by a power of ten, so a literal of very many digits may be off by a unit in the last
  place; a literal above all finite values has no value;
* `numberForm`, `Json.ofFloat`: how a float is written; those that are not finite have no literal;
* **`Json.pretty`**: a value over several lines, two blanks for each level.
-/

namespace DesignVars

/-- The text of a string, if there is one. -/
abbrev Json.Chars := Option String

inductive Json where
  | null
  | bool (b : Bool)
  | number (literal : String)
  | string (s : Json.Chars)
  | array (items : List Json)
  | object (fields : List (Json.Chars × Json))

namespace Json

def ofText (s : String) : Json := .string (some s)

/-- An object with the given fields. -/
def ofFields (fields : List (String × Json)) : Json := .object (fields.map fun f => (some f.1, f.2))

end Json

end DesignVars

namespace DesignVars.Json

open Text Decimal

/-! ## Literals -/

/-- The parts of a number literal. -/
structure Literal where
  negative : Bool
  whole : List Char
  fraction : List Char
  /-- The sign and the digits of the exponent. -/
  exponent : Option (Bool × List Char)

/-- An optional fraction at the front: a point and at least one digit. -/
def takeFraction? : List Char → Option (List Char × List Char)
  | '.' :: cs =>
    let (ds, rest) := takeDigits cs
    if ds.isEmpty then none else some (ds, rest)
  | cs => some ([], cs)

/-- An optional exponent at the front: `e`, an optional sign and at least one digit. -/
def takeExponent? : List Char → Option (Option (Bool × List Char) × List Char)
  | c :: cs =>
    if c = 'e' || c = 'E' then
      let (negative, cs) := takeSign cs
      let (ds, rest) := takeDigits cs
      if ds.isEmpty then none else some (some (negative, ds), rest)
    else some (none, c :: cs)
  | [] => some (none, [])

/-- The digits before the point: a zero, or digits that do not begin with one. -/
def takeWhole? (cs : List Char) : Option (List Char × List Char) :=
  match cs with
  | '0' :: rest => some (['0'], rest)
  | _ =>
    let (ds, rest) := takeDigits cs
    if ds.isEmpty then none else some (ds, rest)

/-- The number literal at the front and what follows it. -/
def takeLiteral? (cs : List Char) : Option (Literal × List Char) := do
  let (negative, body) := match cs with
    | '-' :: rest => (true, rest)
    | _ => (false, cs)
  let (whole, rest) ← takeWhole? body
  let (fraction, rest) ← takeFraction? rest
  let (exponent, rest) ← takeExponent? rest
  some (⟨negative, whole, fraction, exponent⟩, rest)

theorem takeWhole?_length_lt {cs ds rest : List Char} (h : takeWhole? cs = some (ds, rest)) :
    rest.length < cs.length := by
  unfold takeWhole? at h
  split at h
  · cases h; simp
  · simp only [Option.ite_none_left_eq_some, Bool.not_eq_true, Option.some.injEq,
      Prod.mk.injEq] at h
    have := takeDigits_length_lt h.1
    rw [h.2.2] at this
    exact this

theorem takeFraction?_length_le {cs ds rest : List Char}
    (h : takeFraction? cs = some (ds, rest)) : rest.length ≤ cs.length := by
  unfold takeFraction? at h
  split at h
  · rename_i r
    simp only [Option.ite_none_left_eq_some, Bool.not_eq_true, Option.some.injEq,
      Prod.mk.injEq] at h
    have := (takeDigits_suffix r).length_le
    rw [h.2.2] at this
    exact Nat.le_succ_of_le this
  · cases h; exact Nat.le_refl _

theorem takeExponent?_length_le {cs rest : List Char} {e : Option (Bool × List Char)}
    (h : takeExponent? cs = some (e, rest)) : rest.length ≤ cs.length := by
  unfold takeExponent? at h
  split at h
  · rename_i c r
    split at h
    · simp only [Option.ite_none_left_eq_some, Bool.not_eq_true, Option.some.injEq,
        Prod.mk.injEq] at h
      have h1 := (takeDigits_suffix (takeSign r).2).length_le
      have h2 := (takeSign_suffix r).length_le
      rw [h.2.2] at h1
      simp only [List.length_cons]
      omega
    · cases h; exact Nat.le_refl _
  · cases h; exact Nat.le_refl _

theorem takeLiteral?_length_lt {cs rest : List Char} {l : Literal}
    (h : takeLiteral? cs = some (l, rest)) : rest.length < cs.length := by
  unfold takeLiteral? at h
  simp only [Option.bind_eq_bind, Option.bind_eq_some_iff, Option.some.injEq,
    Prod.mk.injEq] at h
  obtain ⟨⟨w, r1⟩, h1, ⟨f, r2⟩, h2, ⟨e, r3⟩, h3, _, rfl⟩ := h
  have h1 := takeWhole?_length_lt h1
  have h2 := takeFraction?_length_le h2
  have h3 := takeExponent?_length_le h3
  split at h1 <;> simp only [List.length_cons] at * <;> omega

/-! ## Values -/

/-- Digits and a power of ten. -/
structure Significand where
  digits : Nat
  exponent : Int

/-- The bound of 64-bit numbers. -/
def wordBound : Nat := 18446744073709551616

/-- One more digit, unless the digits would leave 64 bits. -/
def Significand.push? (s : Significand) (d : Char) : Option Nat :=
  let n := 10 * s.digits + digitValue d
  if n < wordBound then some n else none

/-- The digits before the point. From the first one that does not fit, a digit only counts as a
factor of ten. -/
def Significand.addWhole (s : Significand) : List Char → Significand
  | [] => s
  | d :: ds =>
    match s.push? d with
    | some n => Significand.addWhole ⟨n, s.exponent⟩ ds
    | none => ⟨s.digits, s.exponent + (d :: ds).length⟩

/-- The digits after the point, up to the first one that does not fit. -/
def Significand.addFraction (s : Significand) : List Char → Significand
  | [] => s
  | d :: ds =>
    match s.push? d with
    | some n => Significand.addFraction ⟨n, s.exponent - 1⟩ ds
    | none => s

/-- The largest exponent of a power of ten among the doubles. -/
def maxPower : Int := 308

/-- A float divided by a power of ten, in steps of the largest one. -/
def divideDown : Nat → Float → Float
  | 0, x => x
  | n + 1, x =>
    let power := if (n + 1 : Int) ≤ maxPower then (n + 1 : Int) else maxPower
    if x == 0.0 then x
    else if (n + 1 : Int) ≤ maxPower then x / powerOfTen power
    else divideDown (n + 1 - maxPower.toNat) (x / powerOfTen power)
termination_by n => n
decreasing_by
  have : maxPower.toNat = 308 := rfl
  omega

def Significand.toFloat? (s : Significand) : Option Float :=
  let x := Float.ofNat s.digits
  if 0 ≤ s.exponent then
    if maxPower < s.exponent then (if s.digits = 0 then some x else none)
    else
      let y := x * powerOfTen s.exponent
      if y.isFinite then some y else none
  else some (divideDown s.exponent.natAbs x)

/-- The bound of exponents that are counted. -/
def exponentBound : Nat := 2147483648

def Literal.size? (l : Literal) : Option Float :=
  let s := ((⟨0, 0⟩ : Significand).addWhole l.whole).addFraction l.fraction
  match l.exponent with
  | none => s.toFloat?
  | some (negative, ds) =>
    let e := natOfDigits ds
    if exponentBound ≤ e then (if s.digits = 0 || negative then some 0.0 else none)
    else Significand.toFloat? ⟨s.digits, if negative then s.exponent - e else s.exponent + e⟩

def Literal.toFloat? (l : Literal) : Option Float :=
  l.size?.map fun x => if l.negative then -x else x

/-- The value of the literal that a text is. -/
def floatOfNumber? (text : String) : Option Float :=
  match takeLiteral? text.toList with
  | some (l, []) => l.toFloat?
  | _ => none

/-! ## Writing -/

/-- Positional notation from a hundred-thousandth up to below ten to the sixteenth; whole numbers
end in `.0`. -/
def numberForm : Notation := ⟨.toEven, fun e => -5 ≤ e && e < 16, ".0"⟩

/-! ## Scalars -/

def hexDigit (n : Nat) : Char := Nat.digitChar (n % 16)

/-- A character of a string. -/
def escape (c : Char) : List Char :=
  match c with
  | '"' => ['\\', '"']
  | '\\' => ['\\', '\\']
  | '\x08' => ['\\', 'b']
  | '\x0c' => ['\\', 'f']
  | '\n' => ['\\', 'n']
  | '\r' => ['\\', 'r']
  | '\t' => ['\\', 't']
  | c =>
    if c.toNat < 0x20 then ['\\', 'u', '0', '0', hexDigit (c.toNat / 16), hexDigit c.toNat]
    else [c]

/-- A text between quotes. -/
def quote (s : String) : String := String.ofList ('"' :: s.toList.flatMap escape ++ ['"'])

/-- A float as a number, or as nothing if it is not finite. -/
def ofFloat (x : Float) : Json := if x.isFinite then .number (numberForm.write x) else .null

/-! ## Layout -/

def newline (depth : Nat) : String := "\n" ++ String.ofList (List.replicate (2 * depth) ' ')

/-- Parts between brackets, each on its own line; without parts, nothing is between them. -/
def enclose (opening closing : String) (depth : Nat) (parts : List String) : String :=
  match parts with
  | [] => opening ++ closing
  | _ =>
    opening ++ String.intercalate "," (parts.map fun p => newline (depth + 1) ++ p) ++
      newline depth ++ closing

mutual

/-- A value at some depth. -/
def prettyAt (depth : Nat) : Json → String
  | .null => "null"
  | .bool b => if b then "true" else "false"
  | .number literal => literal
  | .string s => quote (s.getD "")
  | .array items => enclose "[" "]" depth (prettyItems (depth + 1) items)
  | .object fields => enclose "\x7b" "\x7d" depth (prettyFields (depth + 1) fields)

def prettyItems (depth : Nat) : List Json → List String
  | [] => []
  | v :: vs => prettyAt depth v :: prettyItems depth vs

def prettyFields (depth : Nat) : List (Chars × Json) → List String
  | [] => []
  | (key, v) :: fs => (quote (key.getD "") ++ ": " ++ prettyAt depth v) :: prettyFields depth fs

end

/-- A value over several lines. -/
def pretty (v : Json) : String := prettyAt 0 v

end DesignVars.Json
