import DesignVars.Color.Space
import DesignVars.Decimal.Notation
import DesignVars.Decimal.Numeral

/-!
# Color functions in single precision

The arithmetic of `rgb()`, `hsl()`, `hwb()` and `hsv()`, and of the variants of `oklab()` and
`oklch()` that are written with a blank before the parenthesis, is done in single precision.

* `Amount`, `readAngle?`: the parameters;
* `hslChannels`, `hwbChannels`, `hsvChannels`, `oklabChannels`: the channels of each model;
* **`readFunction?`**: the color of a function with its parameters.
-/

namespace DesignVars

open Text Decimal

namespace ColorFunction

/-! ## Parameters -/

/-- A number, or a percentage as the fraction it stands for. -/
structure Amount where
  value : Float32
  isPercentage : Bool

/-- The text before a `%` at the end. -/
def beforePercent? (cs : List Char) : Option (List Char) :=
  if cs.getLast? = some '%' then some cs.dropLast else none

/-- A percentage, or a number over `unit`. -/
def readAmount? (unit : Float32) (cs : List Char) : Option Amount :=
  match (beforePercent? cs).bind readSingle? with
  | some x => some ⟨x / 100.0, true⟩
  | none => (readSingle? cs).map fun x => ⟨x / unit, false⟩

/-- The text before a given ending, in any case. -/
def before? (ending : List Char) (cs : List Char) : Option (List Char) :=
  let (front, back) := cs.splitAt (cs.length - ending.length)
  if lower back = ending then some front else none

/-- The number before a unit, times what the unit counts in degrees. -/
def readUnit? (unit : String) (degrees : Float32 → Float32) (cs : List Char) : Option Float32 :=
  ((before? unit.toList cs).bind readSingle?).map degrees

/-- An angle in degrees; a number without a unit counts degrees. -/
def readAngle? (cs : List Char) : Option Float32 :=
  readUnit? "deg" id cs <|>
  readUnit? "grad" (fun x => x * 360.0 / 400.0) cs <|>
  readUnit? "rad" (fun x => x * 57.29577951308232) cs <|>
  readUnit? "turn" (fun x => x * 360.0) cs <|>
  readSingle? cs

/-- The nearest value between zero and one; what is no number stays. -/
def clampSingle (x : Float32) : Float32 := if x < 0.0 then 0.0 else if 1.0 < x then 1.0 else x

/-- The number itself if it is positive, and zero if not. -/
def atLeastZero (x : Float32) : Float32 := if 0.0 < x then x else 0.0

/-! ## Models -/

/-- Three channels in single precision. -/
structure Triple where
  x : Float32
  y : Float32
  z : Float32

/-- What is left of `x` after taking away `y` as often as it fits. -/
def rest (x y : Float32) : Float32 := (remainder x.toFloat y.toFloat).toFloat32

/-- `x` shifted by a multiple of `y` to lie between zero and `y`. -/
def wrap (x y : Float32) : Float32 := rest (rest x y + y) y

/-- The channel at a place of the color wheel that is six wide: it rises from `low` to `high`,
stays there, and falls again. -/
def wheelChannel (low high place : Float32) : Float32 :=
  let p := wrap place 6.0
  if p < 1.0 then low + (high - low) * p
  else if p < 3.0 then high
  else if p < 4.0 then low + (high - low) * (4.0 - p)
  else low

/-- The channels of a hue in degrees, a saturation and a lightness. -/
def hslChannels (hue saturation lightness : Float32) : Triple :=
  if saturation == 0.0 then ⟨lightness, lightness, lightness⟩
  else
    let high := if lightness < 0.5 then lightness * (1.0 + saturation)
      else lightness + saturation - lightness * saturation
    let low := 2.0 * lightness - high
    let place := hue / 60.0
    ⟨wheelChannel low high (place + 2.0), wheelChannel low high place,
      wheelChannel low high (place - 2.0)⟩

/-- The channels of a hue in degrees and shares of white and black. -/
def hwbChannels (hue white black : Float32) : Triple :=
  if 1.0 ≤ white + black then
    let gray := white / (white + black)
    ⟨gray, gray, gray⟩
  else
    let pure := hslChannels hue 1.0 0.5
    let mix (c : Float32) := c * (1.0 - white - black) + white
    ⟨mix pure.x, mix pure.y, mix pure.z⟩

/-- The channels of a hue in degrees, a saturation and a value. -/
def hsvChannels (hue saturation value : Float32) : Triple :=
  let lightness := (2.0 - saturation) * value / 2.0
  let saturation :=
    if lightness == 0.0 then saturation
    else if lightness == 1.0 then 0.0
    else if lightness < 0.5 then saturation * value / (lightness * 2.0)
    else saturation * value / (2.0 - lightness * 2.0)
  hslChannels hue saturation lightness

/-- The encoded channel of a linear light. -/
def encodeSingle (x : Float32) : Float32 :=
  if 0.0031308 ≤ x then 1.055 * Float32.pow x (1.0 / 2.4) - 0.055 else 12.92 * x

/-- The channels of a lightness and the two axes of OKLab. -/
def oklabChannels (l a b : Float32) : Triple :=
  let cube (x : Float32) := x * x * x
  let l' := cube (l + 0.3963377774 * a + 0.2158037573 * b)
  let m' := cube (l - 0.1055613458 * a - 0.0638541728 * b)
  let s' := cube (l - 0.0894841775 * a - 1.2914855480 * b)
  ⟨encodeSingle (4.0767416621 * l' - 3.3077115913 * m' + 0.2309699292 * s'),
    encodeSingle (-1.2684380046 * l' + 2.6097574011 * m' - 0.3413193965 * s'),
    encodeSingle (-0.0041960863 * l' - 0.7034186147 * m' + 1.7076147010 * s')⟩

/-- An axis of OKLab: a percentage runs from minus to plus the reference chroma. -/
def axis (p : Amount) : Float32 :=
  if p.isPercentage then (p.value + 1.0) * ((0.4 + 0.4) / (1.0 + 1.0)) - 0.4 else p.value

/-- The channels of a lightness, a chroma and a hue in degrees. -/
def oklchChannels (l : Float32) (c : Amount) (hue : Float32) : Triple :=
  let chroma := atLeastZero (if c.isPercentage then c.value * 0.4 else c.value)
  let angle := hue * ((3.141592653589793 : Float32) / 180.0)
  oklabChannels l (chroma * angle.cos) (chroma * angle.sin)

/-! ## Functions -/

/-- A channel in double precision; what lies on one of the 256 steps is that step exactly. -/
def widen (x : Float32) : Float :=
  let wide := x.toFloat
  let scaled := wide * 255.0
  if scaled.isFinite then
    let step := withSign scaled (Float.ofNat (Binary.ofFloat scaled).round)
    if (scaled - step).abs < 1e-4 then step / 255.0 else wide
  else wide

def Triple.color (t : Triple) (opacity : Float32) : Rgba :=
  ⟨widen t.x, widen t.y, widen t.z, widen opacity⟩

/-- A hue, and two amounts of the same kind, both clamped. -/
def readHue? (p q r : List Char) : Option (Float32 × Float32 × Float32) := do
  let hue ← readAngle? p
  let y ← readAmount? 1.0 q
  let z ← readAmount? 1.0 r
  if y.isPercentage == z.isPercentage then
    some (wrap hue 360.0, clampSingle y.value, clampSingle z.value)
  else none

/-- The channels that a function gives for its first three parameters. -/
def channels? (name : String) (p q r : List Char) : Option Triple :=
  if name = "rgb" || name = "rgba" then do
    let x ← readAmount? 255.0 p
    let y ← readAmount? 255.0 q
    let z ← readAmount? 255.0 r
    if x.isPercentage == y.isPercentage && y.isPercentage == z.isPercentage then
      some ⟨clampSingle x.value, clampSingle y.value, clampSingle z.value⟩
    else none
  else if name = "hsl" || name = "hsla" then
    (readHue? p q r).map fun (h, s, l) => hslChannels h s l
  else if name = "hwb" || name = "hwba" then
    (readHue? p q r).map fun (h, w, b) => hwbChannels h w b
  else if name = "hsv" || name = "hsva" then
    (readHue? p q r).map fun (h, s, v) => hsvChannels h s v
  else if name = "oklab" then do
    let l ← readAmount? 1.0 p
    let a ← readAmount? 1.0 q
    let b ← readAmount? 1.0 r
    some (oklabChannels (atLeastZero l.value) (axis a) (axis b))
  else if name = "oklch" then do
    let l ← readAmount? 1.0 p
    let c ← readAmount? 1.0 q
    let h ← readAngle? r
    some (oklchChannels (atLeastZero l.value) c h)
  else none

/-- The parameters between commas, slashes and blanks. -/
def parameters (cs : List Char) : List (List Char) :=
  (cs.splitOnP fun c => isSpace c || c == ',' || c == '/').filter fun p => !p.isEmpty

/-- The color of a function with three parameters, or with an opacity as the fourth. -/
def readFunction? (name : List Char) (body : List Char) : Option Rgba :=
  let name := String.ofList (lower (trimEnd name))
  match parameters body with
  | [p, q, r] => (channels? name p q r).map fun t => t.color 1.0
  | [p, q, r, s] => do
    let opacity ← readAmount? 1.0 s
    let t ← channels? name p q r
    some (t.color (clampSingle opacity.value))
  | _ => none

end ColorFunction

end DesignVars
