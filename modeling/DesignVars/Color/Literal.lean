import DesignVars.Color.Function
import DesignVars.Css.Token

/-!
# Color literals

* `namedColors`: the 148 color names of CSS Color, level 4, with their red, green and blue bytes;
* `lightness?`, `chroma?`, `hue?`, `opacity?`: the channels of `oklch()` and `oklab()`;
* `oklchOfBody?`, `oklabOfBody?`: the channels and the opacity that such a function lists;
* `hexColor?`: hexadecimal colors, whose channels are exact fractions of 255;
* **`readColor?`**: a color literal of any form. A bare word of hexadecimal digits is a name, and
  no color.
-/

namespace DesignVars

open Text Css

/-! ## Names -/

/-- The named colors, each as one number of three bytes. -/
def namedColors : List (String × Nat) :=
  [("aliceblue", 0xF0F8FF), ("antiquewhite", 0xFAEBD7), ("aqua", 0x00FFFF),
    ("aquamarine", 0x7FFFD4), ("azure", 0xF0FFFF), ("beige", 0xF5F5DC), ("bisque", 0xFFE4C4),
    ("black", 0x000000), ("blanchedalmond", 0xFFEBCD), ("blue", 0x0000FF),
    ("blueviolet", 0x8A2BE2), ("brown", 0xA52A2A), ("burlywood", 0xDEB887),
    ("cadetblue", 0x5F9EA0), ("chartreuse", 0x7FFF00), ("chocolate", 0xD2691E),
    ("coral", 0xFF7F50), ("cornflowerblue", 0x6495ED), ("cornsilk", 0xFFF8DC),
    ("crimson", 0xDC143C), ("cyan", 0x00FFFF), ("darkblue", 0x00008B), ("darkcyan", 0x008B8B),
    ("darkgoldenrod", 0xB8860B), ("darkgray", 0xA9A9A9), ("darkgreen", 0x006400),
    ("darkgrey", 0xA9A9A9), ("darkkhaki", 0xBDB76B), ("darkmagenta", 0x8B008B),
    ("darkolivegreen", 0x556B2F), ("darkorange", 0xFF8C00), ("darkorchid", 0x9932CC),
    ("darkred", 0x8B0000), ("darksalmon", 0xE9967A), ("darkseagreen", 0x8FBC8F),
    ("darkslateblue", 0x483D8B), ("darkslategray", 0x2F4F4F), ("darkslategrey", 0x2F4F4F),
    ("darkturquoise", 0x00CED1), ("darkviolet", 0x9400D3), ("deeppink", 0xFF1493),
    ("deepskyblue", 0x00BFFF), ("dimgray", 0x696969), ("dimgrey", 0x696969),
    ("dodgerblue", 0x1E90FF), ("firebrick", 0xB22222), ("floralwhite", 0xFFFAF0),
    ("forestgreen", 0x228B22), ("fuchsia", 0xFF00FF), ("gainsboro", 0xDCDCDC),
    ("ghostwhite", 0xF8F8FF), ("gold", 0xFFD700), ("goldenrod", 0xDAA520), ("gray", 0x808080),
    ("green", 0x008000), ("greenyellow", 0xADFF2F), ("grey", 0x808080), ("honeydew", 0xF0FFF0),
    ("hotpink", 0xFF69B4), ("indianred", 0xCD5C5C), ("indigo", 0x4B0082), ("ivory", 0xFFFFF0),
    ("khaki", 0xF0E68C), ("lavender", 0xE6E6FA), ("lavenderblush", 0xFFF0F5),
    ("lawngreen", 0x7CFC00), ("lemonchiffon", 0xFFFACD), ("lightblue", 0xADD8E6),
    ("lightcoral", 0xF08080), ("lightcyan", 0xE0FFFF), ("lightgoldenrodyellow", 0xFAFAD2),
    ("lightgray", 0xD3D3D3), ("lightgreen", 0x90EE90), ("lightgrey", 0xD3D3D3),
    ("lightpink", 0xFFB6C1), ("lightsalmon", 0xFFA07A), ("lightseagreen", 0x20B2AA),
    ("lightskyblue", 0x87CEFA), ("lightslategray", 0x778899), ("lightslategrey", 0x778899),
    ("lightsteelblue", 0xB0C4DE), ("lightyellow", 0xFFFFE0), ("lime", 0x00FF00),
    ("limegreen", 0x32CD32), ("linen", 0xFAF0E6), ("magenta", 0xFF00FF), ("maroon", 0x800000),
    ("mediumaquamarine", 0x66CDAA), ("mediumblue", 0x0000CD), ("mediumorchid", 0xBA55D3),
    ("mediumpurple", 0x9370DB), ("mediumseagreen", 0x3CB371), ("mediumslateblue", 0x7B68EE),
    ("mediumspringgreen", 0x00FA9A), ("mediumturquoise", 0x48D1CC), ("mediumvioletred", 0xC71585),
    ("midnightblue", 0x191970), ("mintcream", 0xF5FFFA), ("mistyrose", 0xFFE4E1),
    ("moccasin", 0xFFE4B5), ("navajowhite", 0xFFDEAD), ("navy", 0x000080), ("oldlace", 0xFDF5E6),
    ("olive", 0x808000), ("olivedrab", 0x6B8E23), ("orange", 0xFFA500), ("orangered", 0xFF4500),
    ("orchid", 0xDA70D6), ("palegoldenrod", 0xEEE8AA), ("palegreen", 0x98FB98),
    ("paleturquoise", 0xAFEEEE), ("palevioletred", 0xDB7093), ("papayawhip", 0xFFEFD5),
    ("peachpuff", 0xFFDAB9), ("peru", 0xCD853F), ("pink", 0xFFC0CB), ("plum", 0xDDA0DD),
    ("powderblue", 0xB0E0E6), ("purple", 0x800080), ("rebeccapurple", 0x663399),
    ("red", 0xFF0000), ("rosybrown", 0xBC8F8F), ("royalblue", 0x4169E1),
    ("saddlebrown", 0x8B4513), ("salmon", 0xFA8072), ("sandybrown", 0xF4A460),
    ("seagreen", 0x2E8B57), ("seashell", 0xFFF5EE), ("sienna", 0xA0522D), ("silver", 0xC0C0C0),
    ("skyblue", 0x87CEEB), ("slateblue", 0x6A5ACD), ("slategray", 0x708090),
    ("slategrey", 0x708090), ("snow", 0xFFFAFA), ("springgreen", 0x00FF7F),
    ("steelblue", 0x4682B4), ("tan", 0xD2B48C), ("teal", 0x008080), ("thistle", 0xD8BFD8),
    ("tomato", 0xFF6347), ("turquoise", 0x40E0D0), ("violet", 0xEE82EE), ("wheat", 0xF5DEB3),
    ("white", 0xFFFFFF), ("whitesmoke", 0xF5F5F5), ("yellow", 0xFFFF00),
    ("yellowgreen", 0x9ACD32)]

/-- The bytes of a named color, whatever the case of the letters. -/
def bytesOfName? (name : String) : Option (Nat × Nat × Nat) :=
  (namedColors.find? fun e => sameLetters e.1 name).map fun e =>
    (e.2 / 0x10000, e.2 / 0x100 % 0x100, e.2 % 0x100)

/-! ## Channels of `oklch()` and `oklab()` -/

/-- A lightness, or an opacity: a number, or a percentage as a fraction. -/
def lightness? : Component → Option Float
  | .token (.number x _) => some x
  | .token (.percentage x _) => some x
  | _ => none

/-- A chroma, or an axis of OKLab: a number, or a percentage of the reference chroma. -/
def chroma? : Component → Option Float
  | .token (.number x _) => some x
  | .token (.percentage x _) => some (x * chromaReference)
  | _ => none

/-- A hue: a number of degrees with or without their unit. -/
def hue? : Component → Option Float
  | .token (.number x _) => some x
  | .token (.dimension x _ unit) => if sameLetters unit "deg" then some x else none
  | _ => none

/-- The opacity behind the channels: a slash and an amount, or nothing for an opaque color. -/
def opacity? : List Component → Option Float
  | [] => some 1.0
  | [.token (.delim '/'), a] => lightness? a
  | _ => none

/-- The channels and the opacity that `oklch()` lists. -/
def oklchOfBody? : List Component → Option (Channels × Float)
  | l :: c :: h :: rest => do
    some (⟨← lightness? l, ← chroma? c, ← hue? h⟩, ← opacity? rest)
  | _ => none

/-- The channels and the opacity that `oklab()` lists. -/
def oklabOfBody? : List Component → Option (Channels × Float)
  | l :: a :: b :: rest => do
    some (⟨← lightness? l, ← chroma? a, ← chroma? b⟩, ← opacity? rest)
  | _ => none

/-- The body of the function `name`, if the text is a call of it and nothing else. -/
def callBody? (name text : String) : Option (List Component) :=
  match components text with
  | [.block (.function f) body] => if sameLetters f name then some body else none
  | _ => none

def oklchLiteral? (text : String) : Option Rgba :=
  ((callBody? "oklch" text).bind oklchOfBody?).map fun (c, a) => Rgba.ofModel .oklch c a

def oklabLiteral? (text : String) : Option Rgba :=
  ((callBody? "oklab" text).bind oklabOfBody?).map fun (c, a) => Rgba.ofModel .oklab c a

/-! ## Hexadecimal colors -/

/-- A channel that is one of 256 steps. -/
def channelOfByte (n : Nat) : Float := Float.ofNat n / 255.0

/-- An opaque color of three bytes. -/
def Rgba.ofBytes (r g b : Nat) : Rgba := ⟨channelOfByte r, channelOfByte g, channelOfByte b, 1.0⟩

/-- A byte of two hexadecimal digits; a plus sign may stand in for the first. -/
def byteOfPair? (c d : Char) : Option Nat :=
  if c = '+' then hexValue? d
  else match hexValue? c, hexValue? d with
    | some x, some y => some (16 * x + y)
    | _, _ => none

/-- A byte of one hexadecimal digit, which counts twice. -/
def byteOfDigit? (c : Char) : Option Nat := (hexValue? c).map (· * 17)

/-- The color of three, four, six or eight hexadecimal digits. -/
def hexColor? : List Char → Option Rgba
  | [r, g, b] => do some (.ofBytes (← byteOfDigit? r) (← byteOfDigit? g) (← byteOfDigit? b))
  | [r, g, b, a] => do
    let c := Rgba.ofBytes (← byteOfDigit? r) (← byteOfDigit? g) (← byteOfDigit? b)
    some { c with a := channelOfByte (← byteOfDigit? a) }
  | [r, r', g, g', b, b'] => do
    some (.ofBytes (← byteOfPair? r r') (← byteOfPair? g g') (← byteOfPair? b b'))
  | [r, r', g, g', b, b', a, a'] => do
    let c := Rgba.ofBytes (← byteOfPair? r r') (← byteOfPair? g g') (← byteOfPair? b b')
    some { c with a := channelOfByte (← byteOfPair? a a') }
  | _ => none

/-! ## All literals -/

/-- A name and what stands between its parenthesis and the closing one at the end. -/
def splitCall? (cs : List Char) : Option (List Char × List Char) :=
  (cut? '(' cs).bind fun (name, rest) =>
    if rest.getLast? = some ')' then some (name, rest.dropLast) else none

/-- The colors that are neither `oklch()` nor `oklab()`: hexadecimal, of a function, or named. -/
def plainColor? (cs : List Char) : Option Rgba :=
  match cs with
  | '#' :: digits => hexColor? digits
  | _ =>
    let name := String.ofList cs
    if sameLetters name "transparent" then some .zero
    else match splitCall? cs with
      | some (f, body) => ColorFunction.readFunction? f body
      | none =>
        match hexColor? cs with
        | some c => some c
        | none => (bytesOfName? name).map fun (r, g, b) => .ofBytes r g b

/-- A bare word of hexadecimal digits. -/
def isHexWord (cs : List Char) : Bool := cs.all isHexDigit

/-- The color of a literal, as it is: it may lie outside the displayable range. -/
def readColor? (text : String) : Option Rgba :=
  let cs := trim text.toList
  if "oklch(".toList.isPrefixOf (lower cs) then oklchLiteral? (String.ofList cs)
  else if "oklab(".toList.isPrefixOf (lower cs) then oklabLiteral? (String.ofList cs)
  else if isHexWord cs then none
  else plainColor? cs

end DesignVars
