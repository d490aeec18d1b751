/-!
# Floats and how they are written

A finite float is `m * 2 ^ q` up to its sign. Everything that depends on more than the basic
operations of floats is computed on this form, in exact integer arithmetic. Of all decimals that
round to a float, the one that is written has the fewest digits, and of those it is the nearest.

* `Binary`, `Binary.ofFloat`, `isNegative`: the exact form of a float;
* `roundDiv`, `Binary.round`: the nearest integer to a quotient, with a rule for ties, and to a
  value;
* `remainder`: the exact remainder of a division of floats;
* `Binary.readsBack`: the decimals that round to a float, by exact comparison with the two ends of
  its interval;
* `Binary.shortest`: the first grid of decimals that has a point in the interval;
* `Notation`, `Notation.write`: the choices of one printed form, and a float in that form.
-/

namespace DesignVars.Decimal

/-! ## The exact form -/

/-- A finite value `m * 2 ^ q`, without its sign. -/
structure Binary where
  m : Nat
  q : Int
  /-- The gap to the value below is half the gap to the value above. -/
  narrowBelow : Bool

/-- The size of a finite float. -/
def Binary.ofFloat (x : Float) : Binary :=
  let b := x.toBits
  let e := ((b >>> 52) &&& 0x7FF).toNat
  let f := (b &&& 0xFFFFFFFFFFFFF).toNat
  if e == 0 then ⟨f, -1074, false⟩ else ⟨0x10000000000000 + f, (e : Int) - 1075, f == 0 && e > 1⟩

/-- Holds when the sign bit is set; negative zero is negative. -/
def isNegative (x : Float) : Bool := x.toBits >>> 63 == 1

/-- `size` with the sign of `sign`. -/
def withSign (sign size : Float) : Float := if isNegative sign then -size.abs else size.abs

/-! ## Rounding -/

/-- Where a value goes that lies halfway between two integers. -/
inductive Tie where
  | toEven
  | up
deriving DecidableEq, Repr

/-- `num / den` rounded to the nearest integer. -/
def roundDiv (num den : Nat) (tie : Tie) : Nat :=
  let n := num / den
  let twice := 2 * (num % den)
  if twice < den then n
  else if den < twice then n + 1
  else match tie with
    | .up => n + 1
    | .toEven => if n % 2 == 0 then n else n + 1

/-- The numerator of `m * 2 ^ q * 10 ^ k` over `scaledDen`. -/
def Binary.scaledNum (x : Binary) (k : Int) : Nat := x.m * Nat.pow 2 x.q.toNat * Nat.pow 10 k.toNat

/-- The denominator of `m * 2 ^ q * 10 ^ k` under `scaledNum`. -/
def Binary.scaledDen (x : Binary) (k : Int) : Nat := Nat.pow 2 (-x.q).toNat * Nat.pow 10 (-k).toNat

/-- The integer nearest to the value, the larger one of two. -/
def Binary.round (x : Binary) : Nat := roundDiv (x.scaledNum 0) (x.scaledDen 0) .up

/-! ## Remainders -/

/-- The exact value `m * 2 ^ q`, for an `m` of at most 53 binary digits. -/
def ofBinary (m : Nat) (q : Int) : Float :=
  if 0 ≤ q then Float.ofScientific (m * Nat.pow 2 q.toNat) false 0
  else Float.ofScientific (m * Nat.pow 5 (-q).toNat) true (-q).toNat

/-- What is left of `x` after taking away `y` as often as it fits, with the sign of `x`; there is
no such number when `x` is not finite. -/
def remainder (x y : Float) : Float :=
  if x.isFinite then
    let a := Binary.ofFloat x
    let b := Binary.ofFloat y
    let e := min a.q b.q
    withSign x (ofBinary ((a.m * Nat.pow 2 (a.q - e).toNat) % (b.m * Nat.pow 2 (b.q - e).toNat)) e)
  else 0.0 / 0.0

/-! ## The fewest digits that read back -/

/-- The value `digits * 10 ^ exponent`. -/
structure Digits where
  digits : Nat
  exponent : Int
deriving DecidableEq, Repr

/-- Compares `a * 10 ^ i` with `n * 2 ^ j`. -/
def compareScaled (a : Nat) (i : Int) (n : Nat) (j : Int) : Ordering :=
  compare (a * Nat.pow 10 i.toNat * Nat.pow 2 (-j).toNat)
    (n * Nat.pow 2 j.toNat * Nat.pow 10 (-i).toNat)

/-- Holds when `d` is among the reals that round to `x`: from halfway to the value below to
halfway to the value above, ends included for an even `m`. -/
def Binary.readsBack (x : Binary) (d : Digits) : Bool :=
  let low := if x.narrowBelow then 4 * x.m - 1 else 4 * x.m - 2
  let high := 4 * x.m + 2
  let even := x.m % 2 == 0
  let l := compareScaled d.digits d.exponent low (x.q - 2)
  let h := compareScaled d.digits d.exponent high (x.q - 2)
  (l == .gt || (even && l == .eq)) && (h == .lt || (even && h == .eq))

/-- The least `k` with `x < 10 ^ k`, for a positive `x`; the estimate from the binary logarithm is
off by less than two. -/
def Binary.magnitude (x : Binary) : Int :=
  let estimate := ((x.m.log2 + x.q) * 30103).fdiv 100000
  let below (k : Int) : Bool := compareScaled 1 k x.m x.q == .gt
  if below (estimate - 1) then estimate - 1
  else if below estimate then estimate
  else if below (estimate + 1) then estimate + 1
  else estimate + 2

/-- The value without trailing zeros in its digits, looking at `fuel` of them. -/
def Digits.strip : Nat → Digits → Digits
  | 0, d => d
  | fuel + 1, d =>
    if d.digits % 10 == 0 && d.digits != 0 then strip fuel ⟨d.digits / 10, d.exponent + 1⟩ else d

/-- The point of the grid `10 ^ e` that rounds to `x`, the nearer one if there are two. -/
def Binary.onGrid (x : Binary) (tie : Tie) (e : Int) : Option Digits :=
  let num := x.scaledNum (-e)
  let den := x.scaledDen (-e)
  let low : Digits := ⟨num / den, e⟩
  let high : Digits := ⟨num / den + 1, e⟩
  match x.readsBack low, x.readsBack high with
  | true, true => some ⟨roundDiv num den tie, e⟩
  | true, false => some low
  | false, true => some high
  | false, false => none

/-- The exact value as a decimal. -/
def Binary.exactDigits (x : Binary) : Digits :=
  if 0 ≤ x.q then ⟨x.m * Nat.pow 2 x.q.toNat, 0⟩ else ⟨x.m * Nat.pow 5 (-x.q).toNat, x.q⟩

/-- The decimal with the fewest digits that rounds to `x`, nearest to it among those. -/
def Binary.shortest (x : Binary) (tie : Tie) : Digits :=
  if x.m = 0 then ⟨0, 0⟩
  else
    let top := x.magnitude
    let found := (List.range 17).findSome? fun (n : Nat) => x.onGrid tie (top - (n + 1))
    (found.getD x.exactDigits).strip 20

/-! ## Positional and scientific forms -/

/-- The digits of a number in base ten. -/
def digitText (n : Nat) : List Char := Nat.toDigits 10 n

/-- The digits with a point after the first `whole` of them, filled up with zeros; `fraction` is
written for the part after the point when there is none. -/
def positional (ds : List Char) (whole : Int) (fraction : String) : String :=
  if whole ≤ 0 then
    "0." ++ String.ofList (List.replicate (-whole).toNat '0' ++ ds)
  else
    let w := whole.toNat
    if ds.length ≤ w then
      String.ofList (ds ++ List.replicate (w - ds.length) '0') ++ fraction
    else
      String.ofList (ds.take w) ++ "." ++ String.ofList (ds.drop w)

/-- The digits with a point after the first, and the exponent of that digit. -/
def exponential (ds : List Char) (exponent : Int) : String :=
  let lead := String.ofList (ds.take 1)
  let rest := if ds.length ≤ 1 then "" else "." ++ String.ofList (ds.drop 1)
  let sign := if 0 ≤ exponent then "+" else "-"
  lead ++ rest ++ "e" ++ sign ++ String.ofList (digitText exponent.natAbs)

/-- The choices of a printed form of floats. -/
structure Notation where
  /-- Which of two equally near shortest decimals is taken. -/
  tie : Tie
  /-- Holds for the exponents of the leading digit that are written positionally. -/
  isPositional : Int → Bool
  /-- What follows a whole number. -/
  wholeSuffix : String

/-- A finite float in a given notation. -/
def Notation.writeFinite (form : Notation) (x : Float) : String :=
  let sign := if isNegative x then "-" else ""
  let b := Binary.ofFloat x
  if b.m = 0 then sign ++ "0" ++ form.wholeSuffix
  else
    let d := b.shortest form.tie
    let ds := digitText d.digits
    let whole := ds.length + d.exponent
    sign ++ if form.isPositional (whole - 1) then positional ds whole form.wholeSuffix
      else exponential ds (whole - 1)

/-- A float in a given notation; the values that are not finite have names. -/
def Notation.write (form : Notation) (x : Float) : String :=
  if x.isNaN then "NaN"
  else if x.isFinite then form.writeFinite x
  else if isNegative x then "-inf" else "inf"

/-- Plain numbers never have an exponent, and whole ones have no point. -/
def plain : Notation := ⟨.up, fun _ => true, ""⟩

end DesignVars.Decimal
