import DesignVars.Text.Blank

/-!
# Reading numbers

* `Numeral`: a sign, digits and a power of ten, as written;
* `Numeral.toFloat`, `Numeral.toSingle`: the nearest float in double and in single precision;
* `readPlain?`: an optional sign, digits and at most one point between or before them;
* `readSingle?`: the longer grammar with exponents and names for what is not finite.
-/

namespace DesignVars.Decimal

open Text

/-- A number as written: `digits * 10 ^ exponent` with a sign. -/
structure Numeral where
  negative : Bool
  digits : Nat
  exponent : Int
deriving DecidableEq, Repr

/-! ## Values -/

/-- The number above every finite one. -/
def infinite : Float := 1.0 / 0.0

/-- The size of a numeral as a double. Exponents far outside the range of doubles give zero or
infinity without computing the power. -/
def Numeral.size (n : Numeral) : Float :=
  if n.digits = 0 then 0.0
  else if 400 < n.exponent then infinite
  else if n.exponent + n.digits.log2 < -400 then 0.0
  else Float.ofScientific n.digits (n.exponent < 0) n.exponent.natAbs

/-- The double nearest to a numeral. -/
def Numeral.toFloat (n : Numeral) : Float := if n.negative then -n.size else n.size

/-- The size of a numeral in single precision. -/
def Numeral.sizeSingle (n : Numeral) : Float32 :=
  if n.digits = 0 then 0.0
  else if 400 < n.exponent then 1.0 / 0.0
  else if n.exponent + n.digits.log2 < -400 then 0.0
  else Float32.ofScientific n.digits (n.exponent < 0) n.exponent.natAbs

/-- The single-precision float nearest to a numeral. -/
def Numeral.toSingle (n : Numeral) : Float32 :=
  if n.negative then -n.sizeSingle else n.sizeSingle

/-- The double nearest to a power of ten. -/
def powerOfTen (e : Int) : Float := Numeral.toFloat ⟨false, 1, e⟩

/-! ## Grammars -/

/-- Takes a sign off the front; a text without one is positive. -/
def takeSign : List Char → Bool × List Char
  | '-' :: cs => (true, cs)
  | '+' :: cs => (false, cs)
  | cs => (false, cs)

/-- The digits at the front and what follows them. -/
def takeDigits (cs : List Char) : List Char × List Char :=
  (cs.takeWhile isDigit, cs.dropWhile isDigit)

theorem takeSign_suffix (cs : List Char) : (takeSign cs).2 <:+ cs := by
  fun_cases takeSign cs <;> simp

theorem takeDigits_suffix (cs : List Char) : (takeDigits cs).2 <:+ cs :=
  List.dropWhile_suffix _

theorem takeDigits_length_lt {cs : List Char} (h : (takeDigits cs).1.isEmpty = false) :
    (takeDigits cs).2.length < cs.length := by
  have := congrArg List.length (List.takeWhile_append_dropWhile (p := isDigit) (l := cs))
  have h1 : 0 < (cs.takeWhile isDigit).length :=
    List.length_pos_iff.2 fun h' => by simp [takeDigits, h'] at h
  simp only [List.length_append] at this
  show (cs.dropWhile isDigit).length < cs.length
  omega

/-- An optional sign, digits that may be missing before a point, and digits to the end. -/
def readPlain? (cs : List Char) : Option Numeral :=
  let (negative, body) := takeSign cs
  let (whole, rest) := takeDigits body
  match rest with
  | [] => if whole.isEmpty then none else some ⟨negative, natOfDigits whole, 0⟩
  | '.' :: fraction =>
    if fraction.isEmpty || !fraction.all isDigit then none
    else some ⟨negative, natOfDigits (whole ++ fraction), -fraction.length⟩
  | _ => none

/-- A power of ten: nothing, or `e`, an optional sign and digits to the end. -/
def readExponent? : List Char → Option Int
  | [] => some 0
  | c :: cs =>
    if c == 'e' || c == 'E' then
      let (negative, ds) := takeSign cs
      if ds.isEmpty || !ds.all isDigit then none
      else
        let e := natOfDigits ds
        some (if negative then -e else e)
    else none

/-- Digits with at most one point before, after or between them, then a power of ten. -/
def readScientific? (negative : Bool) (body : List Char) : Option Numeral :=
  let (whole, rest) := takeDigits body
  let (fraction, rest) := match rest with
    | '.' :: rest => takeDigits rest
    | _ => ([], rest)
  if whole.isEmpty && fraction.isEmpty then none
  else (readExponent? rest).map fun e =>
    ⟨negative, natOfDigits (whole ++ fraction), e - fraction.length⟩

/-- A number in single precision. Besides digits, `inf`, `infinity` and `nan` are read in any
case. -/
def readSingle? (cs : List Char) : Option Float32 :=
  let (negative, body) := takeSign cs
  let name := String.ofList (lower body)
  if name == "inf" || name == "infinity" then
    some (if negative then -1.0 / 0.0 else 1.0 / 0.0)
  else if name == "nan" then some (0.0 / 0.0)
  else (readScientific? negative body).map Numeral.toSingle

end DesignVars.Decimal
