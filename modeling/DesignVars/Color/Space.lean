import DesignVars.Decimal.Notation

/-!
# Colors and color models

A color has a red, a green and a blue channel and an opacity, each a fraction of one. The other
color models convert to and from it, so a conversion between two of them goes through it.

* `Rgba.isDisplayable`, `Rgba.clamp`: colors within the range that can be shown, and the nearest
  one for the others;
* `toByte`, `Rgba.hex`: a color as bytes, written in hexadecimal;
* `Channels`: the three channels of a color in some model;
* `Model`, `Model.toSrgb`, `Model.ofSrgb`: the models and their links to gamma-encoded sRGB;
* **`convert`**: from one model to another; within one model nothing changes.
-/

namespace DesignVars

/-- A color: red, green, blue and opacity. -/
structure Rgba where
  r : Float
  g : Float
  b : Float
  a : Float
deriving BEq

namespace Rgba

/-- All channels zero: no color at all. -/
def zero : Rgba := ⟨0.0, 0.0, 0.0, 0.0⟩

instance : Inhabited Rgba := ⟨zero⟩

/-! ## The displayable range -/

def inRange (x : Float) : Bool := 0.0 ≤ x && x ≤ 1.0

/-- The nearest value between zero and one; what is no number stays. -/
def clampChannel (x : Float) : Float := if x < 0.0 then 0.0 else if 1.0 < x then 1.0 else x

/-- Every channel is between zero and one. -/
def isDisplayable (c : Rgba) : Bool := inRange c.r && inRange c.g && inRange c.b && inRange c.a

/-- The nearest value between zero and one; what is not finite becomes zero. -/
def clampFinite (x : Float) : Float := if x.isFinite then clampChannel x else 0.0

/-- The nearest displayable color, channel by channel. -/
def clamp (c : Rgba) : Rgba :=
  if c.isDisplayable then c
  else ⟨clampFinite c.r, clampFinite c.g, clampFinite c.b, clampFinite c.a⟩

/-! ## Hexadecimal text -/

/-- A channel as one of 256 steps; what is no number is step zero. -/
def toByte (x : Float) : Nat :=
  let y := clampChannel x * 255.0
  if y.isFinite then (Decimal.Binary.ofFloat y).round else 0

/-- A number below 256 as two hexadecimal digits. -/
def hexPair (n : Nat) : List Char := [Nat.digitChar (n / 16), Nat.digitChar (n % 16)]

/-- The color as `#rrggbb`, or as `#rrggbbaa` when it is not opaque. -/
def hex (c : Rgba) : String :=
  let opacity := toByte c.a
  String.ofList ('#' :: hexPair (toByte c.r) ++ hexPair (toByte c.g) ++ hexPair (toByte c.b) ++
    if opacity = 255 then [] else hexPair opacity)

end Rgba

/-! ## Models -/

/-- The three channels of a color in some model, without its opacity. -/
structure Channels where
  x : Float
  y : Float
  z : Float
deriving BEq

inductive Model where
  /-- Gamma-encoded sRGB. -/
  | srgb
  /-- Linear-light sRGB. -/
  | linear
  /-- Lightness, green to red, blue to yellow. -/
  | oklab
  /-- Lightness, chroma, hue in degrees. -/
  | oklch
deriving DecidableEq, Repr

/-- The chroma that one hundred percent stands for. -/
def chromaReference : Float := 0.4

namespace Model

/-! ## Gamma -/

/-- The linear light of an encoded channel, symmetric about zero. -/
def decodeChannel (c : Float) : Float :=
  let size := c.abs
  Decimal.withSign c
    (if size ≤ 0.04045 then size / 12.92 else Float.pow ((size + 0.055) / 1.055) 2.4)

/-- The encoded channel of a linear light, symmetric about zero. -/
def encodeChannel (c : Float) : Float :=
  let size := c.abs
  Decimal.withSign c
    (if size ≤ 0.0031308 then 12.92 * size else 1.055 * Float.pow size (1.0 / 2.4) - 0.055)

def linearOfSrgb (c : Channels) : Channels :=
  ⟨decodeChannel c.x, decodeChannel c.y, decodeChannel c.z⟩

def srgbOfLinear (c : Channels) : Channels :=
  ⟨encodeChannel c.x, encodeChannel c.y, encodeChannel c.z⟩

/-! ## OKLab -/

def oklabOfLinear (c : Channels) : Channels :=
  let l := Float.cbrt (0.4122214708 * c.x + 0.5363325363 * c.y + 0.0514459929 * c.z)
  let m := Float.cbrt (0.2119034982 * c.x + 0.6806995451 * c.y + 0.1073969566 * c.z)
  let s := Float.cbrt (0.0883024619 * c.x + 0.2817188376 * c.y + 0.6299787005 * c.z)
  ⟨0.2104542553 * l + 0.7936177850 * m - 0.0040720468 * s,
    1.9779984951 * l - 2.4285922050 * m + 0.4505937099 * s,
    0.0259040371 * l + 0.7827717662 * m - 0.8086757660 * s⟩

def linearOfOklab (c : Channels) : Channels :=
  let l := c.x + 0.3963377774 * c.y + 0.2158037573 * c.z
  let m := c.x - 0.1055613458 * c.y - 0.0638541728 * c.z
  let s := c.x - 0.0894841775 * c.y - 1.2914855480 * c.z
  let l := l * l * l
  let m := m * m * m
  let s := s * s * s
  ⟨4.0767416621 * l - 3.3077115913 * m + 0.2309699292 * s,
    -1.2684380046 * l + 2.6097574011 * m - 0.3413193965 * s,
    -0.0041960863 * l - 0.7034186147 * m + 1.7076147010 * s⟩

/-! ## OKLCH -/

/-- Half a turn in radians. -/
def pi : Float := 3.141592653589793

/-- Below this chroma a color is gray and its hue is zero. -/
def grayChroma : Float := 1e-7

/-- A hue in degrees, from zero on. -/
def hueOfRadians (angle : Float) : Float :=
  let degrees := angle * (180.0 / pi)
  if degrees < 0.0 then degrees + 360.0 else degrees

def oklchOfOklab (c : Channels) : Channels :=
  let chroma := Float.sqrt (c.y * c.y + c.z * c.z)
  ⟨c.x, chroma, if chroma < grayChroma then 0.0 else hueOfRadians (Float.atan2 c.z c.y)⟩

def oklabOfOklch (c : Channels) : Channels :=
  let angle := c.z * (pi / 180.0)
  ⟨c.x, c.y * Float.cos angle, c.y * Float.sin angle⟩

/-! ## Conversions -/

def toSrgb : Model → Channels → Channels
  | .srgb, c => c
  | .linear, c => srgbOfLinear c
  | .oklab, c => srgbOfLinear (linearOfOklab c)
  | .oklch, c => srgbOfLinear (linearOfOklab (oklabOfOklch c))

def ofSrgb : Model → Channels → Channels
  | .srgb, c => c
  | .linear, c => linearOfSrgb c
  | .oklab, c => oklabOfLinear (linearOfSrgb c)
  | .oklch, c => oklchOfOklab (oklabOfLinear (linearOfSrgb c))

end Model

/-- The channels of one model as channels of another. -/
def convert (source target : Model) (c : Channels) : Channels :=
  if source = target then c else target.ofSrgb (source.toSrgb c)

/-- A color from the channels of a model and an opacity. -/
def Rgba.ofModel (m : Model) (c : Channels) (a : Float) : Rgba :=
  let s := convert m .srgb c
  ⟨s.x, s.y, s.z, a⟩

/-- The channels of a color in a model. -/
def Rgba.toModel (c : Rgba) (m : Model) : Channels := convert .srgb m ⟨c.r, c.g, c.b⟩

end DesignVars
