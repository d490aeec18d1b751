import DesignVars.Color.Literal
import DesignVars.Value

/-!
# Colors that depend on variables

An `oklch()` function may take its channels from another color, as in
`oklch(from var(--base) l c h)`, or its hue from a number, as in `oklch(0.7 0.1 var(--hue))`.

* `Operand`, `Expression`: what such a function lists;
* **`Expression.parse?`**: the expression a text writes; plain literals are none;
* `Operand.evaluate?`, **`Expression.evaluate?`**: the color under given variables. All parts have
  to have a finite value.
-/

namespace DesignVars

open Text Css

/-! ## Expressions -/

inductive Channel where
  | lightness
  | chroma
  | hue
  | opacity
deriving DecidableEq, Repr

/-- What stands for a channel. -/
inductive Operand where
  | channel (c : Channel)
  | number (x : Float)
  /-- A percentage, as a fraction. -/
  | percentage (x : Float)
  /-- An angle in degrees. -/
  | angle (x : Float)
  /-- The number of that name. -/
  | reference (name : String)
  /-- The hue of the base color, moved by an operand. -/
  | hueOffset (delta : Operand) (negate : Bool)

/-- The parts of an `oklch()` function that refers to variables. -/
structure Expression where
  /-- The name of the color to start from. -/
  base : Option String
  lightness : Operand
  chroma : Operand
  hue : Operand
  opacity : Option Operand

/-- Starts from another color. -/
def Expression.isRelative (e : Expression) : Bool := e.base.isSome

/-- A number or a percentage. -/
def Operand.isLiteral : Operand → Bool
  | .number _ | .percentage _ => true
  | _ => false

def Operand.isReference : Operand → Bool
  | .reference _ => true
  | _ => false

/-- Starts from no color, and takes its hue, but neither lightness nor chroma, from a variable. -/
def Expression.isHueIndirection (e : Expression) : Bool :=
  e.base.isNone && e.lightness.isLiteral && e.chroma.isLiteral && e.hue.isReference

/-! ## Parsing -/

def Channel.ofKeyword? (keyword : String) : Option Channel :=
  if sameLetters keyword "l" then some .lightness
  else if sameLetters keyword "c" then some .chroma
  else if sameLetters keyword "h" then some .hue
  else if sameLetters keyword "alpha" then some .opacity
  else none

/-- The name in the body of `var()`, without its hyphens. -/
def referenceOfBody? : List Component → Option String
  | [.token (.ident name)] =>
    (['-', '-'].isPrefixOf? name.toList).bind fun n =>
      let n := String.ofList n
      if isValidName n then some n else none
  | _ => none

/-- The name in a call of `var()`. -/
def reference? : Component → Option String
  | .block (.function f) body => if sameLetters f "var" then referenceOfBody? body else none
  | _ => none

/-- A number, a percentage, an angle or a reference. -/
def simpleOperand? : Component → Option Operand
  | .token (.number x _) => some (.number x)
  | .token (.percentage x _) => some (.percentage x)
  | .token (.dimension x _ unit) => if sameLetters unit "deg" then some (.angle x) else none
  | c => (reference? c).map .reference

/-- What a hue is moved by: no percentage. -/
def offset? (c : Component) : Option Operand :=
  match simpleOperand? c with
  | some (.percentage _) => none
  | o => o

/-- Holds for numbers with a sign, with or without a unit. -/
def isSigned : Component → Bool
  | .token (.number _ signed) | .token (.dimension _ signed _) => signed
  | _ => false

/-- The body of `calc()`: the hue, a sign, and what it is moved by. The sign may be part of a
number. -/
def hueOffset? : List Component → Option Operand
  | [.token (.ident h), .token (.delim sign), c] =>
    if sameLetters h "h" then
      if sign = '+' then (offset? c).map fun o => .hueOffset o false
      else if sign = '-' then (offset? c).map fun o => .hueOffset o true
      else none
    else none
  | [.token (.ident h), c] =>
    if sameLetters h "h" && isSigned c then (offset? c).map fun o => .hueOffset o false else none
  | _ => none

/-- What stands for a channel. -/
def operand? : Component → Option Operand
  | .token (.ident keyword) => (Channel.ofKeyword? keyword).map .channel
  | .block (.function f) body =>
    if sameLetters f "calc" then hueOffset? body else simpleOperand? (.block (.function f) body)
  | c => simpleOperand? c

/-- The opacity behind the channels: a slash and an operand, or nothing. -/
def opacityOperand? : List Component → Option (Option Operand)
  | [] => some none
  | [.token (.delim '/'), c] => (operand? c).map some
  | _ => none

def base? : List Component → Option (Option String × List Component)
  | .token (.ident word) :: rest =>
    if sameLetters word "from" then
      match rest with
      | c :: rest => (reference? c).map fun name => (some name, rest)
      | [] => none
    else some (none, .token (.ident word) :: rest)
  | cs => some (none, cs)

/-- The parts that the body of `oklch()` lists. -/
def Expression.ofBody? (body : List Component) : Option Expression :=
  match base? body with
  | some (base, l :: c :: h :: rest) => do
    some {
      base
      lightness := ← operand? l
      chroma := ← operand? c
      hue := ← operand? h
      opacity := ← opacityOperand? rest }
  | _ => none

/-- The expression that a text writes: a relative color, or one with an indirect hue. -/
def Expression.parse? (text : String) : Option Expression :=
  ((callBody? "oklch" (trimmed text)).bind Expression.ofBody?).filter fun e =>
    e.isRelative || e.isHueIndirection

/-! ## Evaluation -/

/-- The value of a channel of a color in OKLCH. -/
def Channel.of (c : Channels) (opacity : Float) : Channel → Float
  | .lightness => c.x
  | .chroma => c.y
  | .hue => c.z
  | .opacity => opacity

/-- The base color in OKLCH, with its opacity. -/
abbrev Base := Channels × Float

def finite? (x : Float) : Option Float := if x.isFinite then some x else none

/-- The value of an operand that stands for a channel. -/
def Operand.evaluate? (lookup : Lookup) (base : Option Base) (channel : Channel) :
    Operand → Option Float
  | .channel source => base.bind fun b => finite? (source.of b.1 b.2)
  | .number x => finite? x
  | .percentage x =>
    match channel with
    | .chroma => finite? (x * chromaReference)
    | .hue => none
    | .lightness | .opacity => finite? x
  | .angle x => if channel = .hue then finite? x else none
  | .reference name => (lookup.number? name).bind fun x =>
    finite? (if channel = .chroma then x * chromaReference else x)
  | .hueOffset delta negate =>
    if channel = .hue then
      base.bind fun b => (delta.evaluate? lookup base .hue).bind fun d =>
        finite? (if negate then b.1.z - d else b.1.z + d)
    else none

/-- The base color under given variables, if there is to be one. -/
def Expression.evaluateBase? (lookup : Lookup) (e : Expression) : Option (Option Base) :=
  match e.base with
  | none => some none
  | some name => (lookup.color? name).map fun c => some (c.toModel .oklch, c.a)

/-- The opacity: its own, that of the base color, or one. -/
def Expression.evaluateOpacity? (lookup : Lookup) (base : Option Base) (e : Expression) :
    Option Float :=
  match e.opacity with
  | some o => o.evaluate? lookup base .opacity
  | none => some (base.elim 1.0 (·.2))

/-- The channels and the opacity under given variables. -/
def Expression.channels? (lookup : Lookup) (e : Expression) : Option (Channels × Float) := do
  let base ← e.evaluateBase? lookup
  let l ← e.lightness.evaluate? lookup base .lightness
  let c ← e.chroma.evaluate? lookup base .chroma
  let h ← e.hue.evaluate? lookup base .hue
  let a ← e.evaluateOpacity? lookup base
  some (⟨l, if 0.0 < c then c else 0.0, h⟩, a)

/-- The displayable color under given variables. -/
def Expression.evaluate? (lookup : Lookup) (e : Expression) : Option Rgba :=
  (e.channels? lookup).map fun (c, a) => (Rgba.ofModel .oklch c a).clamp

end DesignVars
