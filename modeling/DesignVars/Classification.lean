import DesignVars.Color.Expression
import DesignVars.Value

/-!
# What a value text means

* `plainNumber?`, `measure?`: numbers, and numbers with a unit;
* `lightDark?`: the two arguments of `light-dark()`;
* `Classified`, **`classify`**: the value of a declaration at the top level. The grammars are tried
  in a fixed order, and the first that accepts the text decides;
* **`classifyMode`**: the value of a declaration in a mode block, where numbers do not count.
-/

namespace DesignVars

open Text Decimal

/-! ## Numbers -/

/-- An integer or a decimal with an optional sign. -/
def plainNumber? (text : String) : Option Float := (readPlain? text.toList).map Numeral.toFloat

/-- Letters and the percent sign, of which units are made. -/
def isUnitLetter (c : Char) : Bool := isLetter c || c == '%'

/-- The pixels of one `rem`. -/
def pixelsPerRem : Float := 16.0

/-- A number in a unit: `rem` counts pixels, a percentage is a fraction, and any other unit leaves
the number as it is. -/
def inUnit (unit : String) (x : Float) : Float :=
  if sameLetters unit "rem" then x * pixelsPerRem
  else if unit = "%" then x / 100.0
  else x

/-- A number with a unit right behind it. -/
def measure? (text : String) : Option Float :=
  let reversed := text.toList.reverse
  let unit := (reversed.takeWhile isUnitLetter).reverse
  let number := (reversed.dropWhile isUnitLetter).reverse
  if unit.isEmpty then none
  else (readPlain? number).map fun n => inUnit (String.ofList unit) n.toFloat

/-! ## Values for light and dark -/

/-- The parts of a text between the commas outside all parentheses, given the depth at its front;
there are none if the parentheses do not match. -/
def splitArguments? (depth : Nat) : List Char → Option (List (List Char))
  | [] => if depth = 0 then some [[]] else none
  | c :: cs =>
    if c = ',' && depth = 0 then (splitArguments? 0 cs).map ([] :: ·)
    else if c = ')' && depth = 0 then none
    else
      let depth := if c = '(' then depth + 1 else if c = ')' then depth - 1 else depth
      (splitArguments? depth cs).map fun
        | part :: parts => (c :: part) :: parts
        | [] => [[c]]

/-- What `light-dark()` begins with. -/
def lightDarkHead : List Char := "light-dark(".toList

/-- What stands between the parentheses of `light-dark()`. -/
def lightDarkBody? (cs : List Char) : Option (List Char) :=
  let (head, rest) := cs.splitAt lightDarkHead.length
  if lower head = lightDarkHead && rest.getLast? = some ')' then some rest.dropLast else none

/-- The two arguments of `light-dark()`, without outer blanks; neither may be blank. -/
def lightDark? (text : String) : Option (String × String) :=
  match (lightDarkBody? text.toList).bind (splitArguments? 0) with
  | some [light, dark] =>
    let light := trim light
    let dark := trim dark
    if light.isEmpty || dark.isEmpty then none
    else some (String.ofList light, String.ofList dark)
  | _ => none

/-! ## Classification -/

/-- What a declaration at the top level sets. -/
inductive Classified where
  | single (v : Value)
  /-- One value for each of the light and the dark mode. -/
  | dual (light dark : Value)

/-- The value that becomes the base value. -/
def Classified.base : Classified → Value
  | .single v => v
  | .dual light _ => light

/-- The displayable color of a literal. -/
def colorLiteral? (text : String) : Option Value :=
  (readColor? text).map fun c => .concrete (.color c.clamp)

/-- An alias or a color: of an expression if the text is one, and of a literal if not. -/
def classifyColor (lookup : Lookup) (text : String) : Option Value :=
  match aliasOf? text with
  | some target => some (.alias target)
  | none =>
    match Expression.parse? text with
    | some e => (e.evaluate? lookup).map fun c => .concrete (.color c)
    | none => colorLiteral? text

/-- The value of a declaration at the top level. -/
def classify (lookup : Lookup) (text : String) : Option Classified :=
  let text := trimmed text
  match aliasOf? text with
  | some target => some (.single (.alias target))
  | none =>
    match plainNumber? text with
    | some x => some (.single (.concrete (.number x)))
    | none =>
      match measure? text with
      | some x => some (.single (.concrete (.number x)))
      | none =>
        match lightDark? text with
        | some (light, dark) => do
          some (.dual (← classifyColor lookup light) (← classifyColor lookup dark))
        | none => (classifyColor lookup text).map .single

/-- The value of a declaration in a mode block: an alias or a color literal. -/
def classifyMode (text : String) : Option Value :=
  let text := trimmed text
  match aliasOf? text with
  | some target => some (.alias target)
  | none => colorLiteral? text

end DesignVars
