import DesignVars.Json.Token
import DesignVars.SortedMap

/-!
# Reading JSON

The tokens of a text are taken in one by one, with the arrays and objects around the current place
kept on a stack. The value that they make is then taken apart.

* `Frame`, `Stage`, `State`: the open arrays and objects, and what may come next;
* `State.step`: one more token;
* **`Json.read?`**: the value that a text is, if it is one;
* `textOf?`, `floatOf?`, `choiceOf?`, `listOf?`, `mapOf?`: values of a given shape;
* `Fields.once?`, `Fields.required`, `Fields.optional`: a field that may not come twice, one that
  has to be there, and one with a default;
* `fields?`: the fields of a record, by name from an object or by position from an array. Other
  fields do not count, and a field may not come twice;
* `isClean`: all texts exist, and all numbers are in range.
-/

namespace DesignVars.Json

/-- An array or an object that is still open; what it holds comes last first. -/
inductive Frame where
  | array (items : List Json)
  | object (fields : List (Chars × Json)) (key : Chars)

/-- What may come next. -/
inductive Stage where
  | value
  | valueOrEnd
  | key
  | keyOrEnd
  | colon
  /-- A comma, or the end of the innermost array or object. -/
  | more
  /-- Nothing: the value is complete. -/
  | done (v : Json)

/-- The place that reading has got to. -/
structure State where
  frames : List Frame
  stage : Stage

namespace State

/-- The place of a value that is complete. -/
def place (v : Json) : List Frame → State
  | [] => ⟨[], .done v⟩
  | .array items :: fs => ⟨.array (v :: items) :: fs, .more⟩
  | .object fields key :: fs => ⟨.object ((key, v) :: fields) none :: fs, .more⟩

def begin (frames : List Frame) : Token → Option State
  | .scalar v => some (place v frames)
  | .openBracket => some ⟨.array [] :: frames, .valueOrEnd⟩
  | .openBrace => some ⟨.object [] none :: frames, .keyOrEnd⟩
  | _ => none

/-- The end of the innermost array or object. -/
def finish : List Frame → Token → Option State
  | .array items :: fs, .closeBracket => some (place (.array items.reverse) fs)
  | .object fields _ :: fs, .closeBrace => some (place (.object fields.reverse) fs)
  | _, _ => none

def setKey : List Frame → Token → Option State
  | .object fields _ :: fs, .scalar (.string key) => some ⟨.object fields key :: fs, .colon⟩
  | _, _ => none

def afterComma : List Frame → Option State
  | .array items :: fs => some ⟨.array items :: fs, .value⟩
  | .object fields key :: fs => some ⟨.object fields key :: fs, .key⟩
  | [] => none

def step (s : State) (t : Token) : Option State :=
  match s.stage with
  | .value => begin s.frames t
  | .valueOrEnd => begin s.frames t <|> finish s.frames t
  | .key => setKey s.frames t
  | .keyOrEnd => setKey s.frames t <|> finish s.frames t
  | .colon => match t with
    | .colon => some ⟨s.frames, .value⟩
    | _ => none
  | .more => match t with
    | .comma => afterComma s.frames
    | t => finish s.frames t
  | .done _ => none

end State

def ofTokens? (ts : List Token) : Option Json :=
  match ts.foldlM State.step ⟨[], .value⟩ with
  | some ⟨_, .done v⟩ => some v
  | _ => none

def read? (text : String) : Option Json := (tokens? text.toList).bind ofTokens?

end DesignVars.Json

namespace DesignVars.Fields

/-! ## The fields of a record -/

/-- The value of a field, nothing if it is missing, and no result if it comes twice. -/
def once? {β : Type} (fields : List (String × β)) (name : String) : Option (Option β) :=
  match fields.filter fun f => f.1 == name with
  | [] => some none
  | [(_, v)] => some (some v)
  | _ => none

/-- A field that has to be there. -/
def required {α β : Type} (f : β → Option α) (v : Option β) : Option α := v.bind f

/-- A field with a default. -/
def optional {α β : Type} (default : α) (f : β → Option α) : Option β → Option α
  | none => some default
  | some v => f v

end DesignVars.Fields

namespace DesignVars.Json

/-! ## Scalars -/

def textOf? : Json → Option String
  | .string s => s
  | _ => none

def floatOf? : Json → Option Float
  | .number literal => floatOfNumber? literal
  | _ => none

/-- A name out of a list of names: a string, or an object with nothing under that name. -/
def choiceOf? {α : Type} (ofName? : String → Option α) : Json → Option α
  | .string s => s.bind ofName?
  | .object [(key, .null)] => key.bind ofName?
  | _ => none

/-- A value of a given shape, or nothing for null. -/
def nullable {α : Type} (f : Json → Option α) : Json → Option (Option α)
  | .null => some none
  | v => (f v).map some

/-! ## Lists and maps -/

def listOf? {α : Type} (f : Json → Option α) : Json → Option (List α)
  | .array items => items.mapM f
  | _ => none

/-- The fields of an object as a map; of two fields with one name the later counts. -/
def mapOf? {α : Type} (f : Json → Option α) : Json → Option (SortedMap α)
  | .object fields =>
    (fields.mapM fun (e : Chars × Json) => do some (← e.1, ← f e.2)).map SortedMap.ofList
  | _ => none

/-! ## Records -/

/-- The values of the fields with the given names, in the order of the names. -/
def fields? (names : List String) : Json → Option (List (Option Json))
  | .object fields => do
    let fields ← fields.mapM fun (e : Chars × Json) => e.1.map fun k => (k, e.2)
    names.mapM (Fields.once? fields)
  | .array items =>
    if items.length ≤ names.length then
      some (items.map some ++ List.replicate (names.length - items.length) none)
    else none
  | _ => none

/-! ## Values that are read in full -/

mutual

/-- Holds when all texts exist and all numbers are in range. -/
def isClean : Json → Bool
  | .number literal => (floatOfNumber? literal).isSome
  | .string s => s.isSome
  | .array items => areClean items
  | .object fields => fieldsAreClean fields
  | _ => true

def areClean : List Json → Bool
  | [] => true
  | v :: vs => v.isClean && areClean vs

def fieldsAreClean : List (Chars × Json) → Bool
  | [] => true
  | (k, v) :: fs => k.isSome && v.isClean && fieldsAreClean fs

end

end DesignVars.Json
