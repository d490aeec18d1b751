import DesignVars.Value

/-!
# Names and usage scopes

Stylesheets name variables flat, as in `color-text-primary`; design tools group them by path, as in
`color/text/primary`. Every hyphen is a group boundary. Design tools also restrict where a variable
may be applied by a list of scopes. The settings of an import list them, and for lack of that the
name of the variable suggests them.

* `pathOfName`, `nameOfPath`: from one form of a name to the other;
* `groupOf`, `leafOf`: the path without its last segment, and that segment;
* `Scope`, `Scope.all`, `Scope.name`, `Scope.keywords`: the scopes, in the order of inference;
* `Scope.appliesTo`: which scopes a type of variable may carry;
* `normalize`: a name in capitals with one underscore for every run of other characters;
* `inferScopes`: the scopes named in a variable's name, then those with a keyword in it;
* `Settings`: the target collection, and scopes listed for variables and groups;
* **`scopesFor`**: the scopes of a variable, listed or inferred;
* `refusedScopes`: the listed scopes that its type may not carry.
-/

namespace DesignVars

open Text

/-! ## Names -/

/-- The text with one character put in the place of another. -/
def exchange (old new : Char) (text : String) : String :=
  String.ofList (text.toList.map fun c => if c = old then new else c)

/-- The path of a flat name. -/
def pathOfName (name : String) : String := exchange '-' '/' name

/-- The flat name of a path. -/
def nameOfPath (path : String) : String := exchange '/' '-' path

/-- The text before the last `sep` and the text after it. -/
def cutLast? (sep : Char) : List Char → Option (List Char × List Char)
  | [] => none
  | c :: cs =>
    match cutLast? sep cs with
    | some (a, b) => some (c :: a, b)
    | none => if c = sep then some ([], cs) else none

/-- The path that a name has in front of its last segment; empty for a name of one segment. -/
def groupOf (name : String) : String :=
  match cutLast? '/' (pathOfName name).toList with
  | some (group, _) => String.ofList group
  | none => ""

/-- The last segment of a flat name. -/
def leafOf (name : String) : String :=
  match cutLast? '-' name.toList with
  | some (_, leaf) => String.ofList leaf
  | none => name

/-! ## The scopes -/

/-- Where a variable may be applied. -/
inductive Scope where
  | textContent
  | cornerRadius
  | widthHeight
  | gap
  | allFills
  | frameFill
  | shapeFill
  | textFill
  | strokeColor
  | strokeFloat
  | effectFloat
  | effectColor
  | opacity
  | fontFamily
  | fontStyle
  | fontWeight
  | fontSize
  | lineHeight
  | letterSpacing
  | paragraphSpacing
  | paragraphIndent
deriving DecidableEq, Repr

namespace Scope

/-- Every scope, in the order of inference. -/
def all : List Scope :=
  [textContent, cornerRadius, widthHeight, gap, allFills, frameFill, shapeFill, textFill,
    strokeColor, strokeFloat, effectFloat, effectColor, opacity, fontFamily, fontStyle, fontWeight,
    fontSize, lineHeight, letterSpacing, paragraphSpacing, paragraphIndent]

theorem mem_all (s : Scope) : s ∈ all := by cases s <;> decide

/-- The name of a scope in design tools. -/
def name : Scope → String
  | textContent => "TEXT_CONTENT"
  | cornerRadius => "CORNER_RADIUS"
  | widthHeight => "WIDTH_HEIGHT"
  | gap => "GAP"
  | allFills => "ALL_FILLS"
  | frameFill => "FRAME_FILL"
  | shapeFill => "SHAPE_FILL"
  | textFill => "TEXT_FILL"
  | strokeColor => "STROKE_COLOR"
  | strokeFloat => "STROKE_FLOAT"
  | effectFloat => "EFFECT_FLOAT"
  | effectColor => "EFFECT_COLOR"
  | opacity => "OPACITY"
  | fontFamily => "FONT_FAMILY"
  | fontStyle => "FONT_STYLE"
  | fontWeight => "FONT_WEIGHT"
  | fontSize => "FONT_SIZE"
  | lineHeight => "LINE_HEIGHT"
  | letterSpacing => "LETTER_SPACING"
  | paragraphSpacing => "PARAGRAPH_SPACING"
  | paragraphIndent => "PARAGRAPH_INDENT"

/-- Words in a normalized name that select a scope. -/
def keywords : Scope → List String
  | textContent => ["TEXT", "CONTENT", "STRING"]
  | cornerRadius => ["RADIUS", "BORDER_RADIUS", "ROUNDNESS"]
  | widthHeight => ["WIDTH", "HEIGHT", "DIMENSION"]
  | gap => ["GAP", "SPACING", "SPACE"]
  | allFills => ["FILL", "BACKGROUND"]
  | frameFill => ["FRAME_FILL"]
  | shapeFill => ["SHAPE_FILL"]
  | textFill => ["TEXT_FILL", "FONT_COLOR"]
  | strokeColor => ["STROKE_COLOR", "BORDER_COLOR"]
  | strokeFloat => ["STROKE_WIDTH", "BORDER_WIDTH"]
  | effectFloat => ["BLUR", "SHADOW_SPREAD", "EFFECT_SIZE"]
  | effectColor => ["SHADOW_COLOR", "GLOW_COLOR"]
  | opacity => ["OPACITY", "ALPHA", "TRANSPARENCY"]
  | fontFamily => ["FONT", "TYPEFACE", "FONT_FAMILY"]
  | fontStyle => ["STYLE", "FONT_STYLE"]
  | fontWeight => ["FONT_WEIGHT", "WEIGHT"]
  | fontSize => ["FONT_SIZE", "TEXT_SIZE"]
  | lineHeight => ["LINE_HEIGHT", "LEADING"]
  | letterSpacing => ["LETTER_SPACING", "TRACKING"]
  | paragraphSpacing => ["PARAGRAPH_SPACING", "PARAGRAPH_GAP"]
  | paragraphIndent => ["PARAGRAPH_INDENT", "INDENTATION"]

/-- The type of variable that may carry a scope; the scopes of texts suit neither type. -/
def kind? : Scope → Option Kind
  | cornerRadius | widthHeight | gap | strokeFloat | effectFloat | opacity | fontWeight | fontSize
  | lineHeight | letterSpacing | paragraphSpacing | paragraphIndent => some .number
  | allFills | frameFill | shapeFill | textFill | strokeColor | effectColor => some .color
  | textContent | fontFamily | fontStyle => none

/-- Holds when a variable of that type may carry the scope. -/
def appliesTo (s : Scope) (k : Kind) : Bool := s.kind? == some k

/-- The scope of exactly that name. -/
def ofName? (name : String) : Option Scope := all.find? fun s => s.name == name

end Scope

/-! ## Inference -/

/-- Every letter in capitals, and one underscore for every run of characters that are neither
letters nor digits. -/
def normalizeFrom (afterGap : Bool) : List Char → List Char
  | [] => []
  | c :: cs =>
    if isLetter c || isDigit c then c.toUpper :: normalizeFrom false cs
    else if afterGap then normalizeFrom true cs
    else '_' :: normalizeFrom true cs

/-- A name in the form of scope names. -/
def normalize (name : String) : String := String.ofList (normalizeFrom false name.toList)

/-- The scope that a text names, in any spelling that normalizes to its name. -/
def Scope.parse? (text : String) : Option Scope := Scope.ofName? (normalize text)

/-- Holds when `word` stands somewhere in the text. -/
def occursIn (word : List Char) : List Char → Bool
  | [] => word.isEmpty
  | c :: cs => word.isPrefixOf (c :: cs) || occursIn word cs

/-- Holds when the name of the scope stands in a normalized name. -/
def Scope.isNamedIn (s : Scope) (normalized : List Char) : Bool :=
  occursIn s.name.toList normalized

/-- Holds when a keyword of the scope stands in a normalized name. -/
def Scope.hasKeywordIn (s : Scope) (normalized : List Char) : Bool :=
  s.keywords.any fun k => occursIn k.toList normalized

/-- The scopes of a variable by its name: those that are named in it, then those with a keyword
in it, as far as the type may carry them. -/
def inferScopes (name : String) (kind : Kind) : List Scope :=
  let n := (normalize name).toList
  let named := Scope.all.filter fun s => s.isNamedIn n
  let hinted := Scope.all.filter fun s => !s.isNamedIn n && s.hasKeywordIn n
  (named ++ hinted).filter fun s => s.appliesTo kind

/-! ## Settings -/

/-- What the caller of an import may choose. -/
structure Settings where
  /-- The collection to import into. -/
  collection : String
  /-- Scopes of single variables, by flat name. -/
  itemScopes : SortedMap (List Scope)
  /-- Scopes of groups of variables, by path. -/
  groupScopes : SortedMap (List Scope)
deriving BEq

/-- The collection of an import that does not name one. -/
def defaultCollection : String := "CSS Variables"

/-- The settings of an import without any choices. -/
def Settings.default : Settings := ⟨defaultCollection, .empty, .empty⟩

instance : Inhabited Settings := ⟨.default⟩

/-! ## The scopes of a variable -/

/-- The value at a key unless it is the empty list. -/
def nonempty? (m : SortedMap (List Scope)) (key : String) : Option (List Scope) :=
  (m.get? key).filter fun l => !l.isEmpty

/-- The scopes that the settings list for a variable: its own before those of its group. An empty
list counts as none. -/
def Settings.listed? (settings : Settings) (name : String) : Option (List Scope) :=
  nonempty? settings.itemScopes name <|> nonempty? settings.groupScopes (groupOf name)

/-- The scopes of a variable: the listed ones that its type may carry, each once, or else those
that its name gives. -/
def scopesFor (settings : Settings) (name : String) (kind : Kind) : List Scope :=
  match settings.listed? name with
  | some listed => (listed.filter fun s => s.appliesTo kind).eraseDups
  | none => inferScopes name kind

/-- The listed scopes that the type of a variable may not carry. -/
def refusedScopes (settings : Settings) (name : String) (kind : Kind) : List Scope :=
  ((settings.listed? name).getD []).filter fun s => !s.appliesTo kind

end DesignVars
