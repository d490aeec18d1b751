import DesignVars.Yaml.Token

/-!
# YAML values

The tokens of a text are taken in one by one, with the lists and maps around the current place kept
on a stack. Where a value is missing it is the empty scalar.

* `Node`: a value; all scalars are texts, and fields are kept in their order;
* `Frame`, `Stage`, `State`: the open lists and maps, and what may come next;
* `State.step`: one more token;
* **`Yaml.read?`**: the value that a text is, if it is one.
-/

namespace DesignVars.Yaml

inductive Node where
  /-- A text, and whether it is written without quotes. -/
  | scalar (text : String) (plain : Bool)
  | list (items : List Node)
  | map (fields : List (Node × Node))

/-- What stands where nothing is written. -/
def Node.empty : Node := .scalar "" true

/-! ## The state of reading -/

/-- The part of a field that comes next. -/
inductive Part where
  /-- A key that was announced. -/
  | key
  /-- A key between braces that has no value. -/
  | loneKey
  /-- The value of a key. -/
  | value (key : Node)

/-- A list or map that is still open; what it holds comes last first. -/
inductive Frame where
  /-- A list at a column of its own. -/
  | items (done : List Node)
  /-- A list at the column of the map around it. -/
  | levelItems (done : List Node)
  /-- A map at a column of its own. -/
  | fields (done : List (Node × Node)) (next : Part)
  | brackets (done : List Node)
  /-- A map of one field that stands between brackets without braces. -/
  | pair (next : Part)
  | braces (done : List (Node × Node)) (next : Part)

/-- What may come next. -/
inductive Stage where
  | document
  | content
  /-- A value, or nothing. -/
  | node
  /-- An item or a field between brackets or braces, or the end. -/
  | inside
  | more
  /-- Nothing but the end of the document. -/
  | done (v : Node)

/-- The place that reading has got to. -/
structure State where
  frames : List Frame
  stage : Stage

namespace State

/-- The place behind a value. -/
def place (v : Node) : List Frame → State
  | [] => ⟨[], .done v⟩
  | .items done :: fs => ⟨.items (v :: done) :: fs, .more⟩
  | .levelItems done :: fs => ⟨.levelItems (v :: done) :: fs, .more⟩
  | .fields done (.value k) :: fs => ⟨.fields ((k, v) :: done) .key :: fs, .more⟩
  | .fields done _ :: fs => ⟨.fields done (.value v) :: fs, .more⟩
  | .brackets done :: fs => ⟨.brackets (v :: done) :: fs, .more⟩
  | .pair (.value k) :: .brackets done :: fs =>
    ⟨.brackets (.map [(k, v)] :: done) :: fs, .more⟩
  | .pair _ :: fs => ⟨.pair (.value v) :: fs, .more⟩
  | .braces done .key :: fs => ⟨.braces done (.value v) :: fs, .more⟩
  | .braces done .loneKey :: fs => ⟨.braces ((v, .empty) :: done) .loneKey :: fs, .more⟩
  | .braces done (.value k) :: fs => ⟨.braces ((k, v) :: done) .loneKey :: fs, .more⟩

/-! ## What is left out -/

/-- Holds when a token shows that the value before it is left out. -/
def leavesOut : List Frame → Token → Bool
  | .items _ :: _, t => t == .item || t == .finish
  | .levelItems _ :: _, t => t == .item || t == .key || t == .value || t == .finish
  | .fields _ _ :: _, t => t == .key || t == .value || t == .finish
  | .pair (.value _) :: _, t => t == .comma || t == .closeBracket
  | .braces _ .key :: _, t => t == .value || t == .comma || t == .closeBrace
  | .braces _ (.value _) :: _, t => t == .comma || t == .closeBrace
  | _, _ => false

/-- Puts the empty scalar where a token shows that a value is left out. -/
def fillNode (t : Token) (s : State) : State :=
  match s.stage with
  | .node => if leavesOut s.frames t then place .empty s.frames else s
  | _ => s

/-- Ends a list at the column of the map around it where no further item comes. -/
def endLevelItems (t : Token) (s : State) : State :=
  match s.stage, s.frames with
  | .more, .levelItems done :: fs => if t = .item then s else place (.list done.reverse) fs
  | _, _ => s

/-- Holds when a key has been read and its value comes next. -/
def awaitsValue : List Frame → Bool
  | .fields _ (.value _) :: _ => true
  | .pair (.value _) :: _ => true
  | .braces _ (.value _) :: _ => true
  | _ => false

/-- Gives a key the empty value where no value comes. -/
def fillValue (t : Token) (s : State) : State :=
  match s.stage with
  | .more => if awaitsValue s.frames && t != .value then place .empty s.frames else s
  | _ => s

/-! ## Tokens -/

/-- Holds where lists and maps may have columns. -/
def inBlock : List Frame → Bool
  | [] => true
  | .items _ :: _ => true
  | .levelItems _ :: _ => true
  | .fields _ _ :: _ => true
  | _ => false

def begin? (frames : List Frame) (t : Token) : Option State :=
  match t with
  | .scalar text plain => some (place (.scalar text plain) frames)
  | .openBracket => some ⟨.brackets [] :: frames, .inside⟩
  | .openBrace => some ⟨.braces [] .loneKey :: frames, .inside⟩
  | .beginList => if inBlock frames then some ⟨.items [] :: frames, .more⟩ else none
  | .beginMap => if inBlock frames then some ⟨.fields [] .key :: frames, .more⟩ else none
  | .item =>
    match frames with
    | .fields _ _ :: _ => some ⟨.levelItems [] :: frames, .node⟩
    | _ => none
  | _ => none

/-- What comes between brackets or braces. -/
def inside? (frames : List Frame) (t : Token) : Option State :=
  match frames, t with
  | .brackets done :: fs, .closeBracket => some (place (.list done.reverse) fs)
  | .brackets _ :: _, .key => some ⟨.pair .key :: frames, .node⟩
  | .braces done _ :: fs, .closeBrace => some (place (.map done.reverse) fs)
  | .braces done _ :: fs, .key => some ⟨.braces done .key :: fs, .node⟩
  | _, t => begin? frames t

def more? (frames : List Frame) (t : Token) : Option State :=
  match frames, t with
  | .items _ :: _, .item => some ⟨frames, .node⟩
  | .items done :: fs, .finish => some (place (.list done.reverse) fs)
  | .levelItems _ :: _, .item => some ⟨frames, .node⟩
  | .fields _ (.value _) :: _, .value => some ⟨frames, .node⟩
  | .fields _ .key :: _, .key => some ⟨frames, .node⟩
  | .fields done .key :: fs, .finish => some (place (.map done.reverse) fs)
  | .brackets _ :: _, .comma => some ⟨frames, .inside⟩
  | .brackets done :: fs, .closeBracket => some (place (.list done.reverse) fs)
  | .pair (.value _) :: _, .value => some ⟨frames, .node⟩
  | .braces _ (.value _) :: _, .value => some ⟨frames, .node⟩
  | .braces _ .loneKey :: _, .comma => some ⟨frames, .inside⟩
  | .braces done .loneKey :: fs, .closeBrace => some (place (.map done.reverse) fs)
  | _, _ => none

/-- One more token at a place where nothing is left out before it. -/
def accept? (t : Token) (s : State) : Option State :=
  match s.stage with
  | .document => if t = .documentStart then some ⟨[], .content⟩ else begin? [] t
  | .content => if t = .documentEnd then some ⟨[], .done .empty⟩ else begin? [] t
  | .node => begin? s.frames t
  | .inside => inside? s.frames t
  | .more => more? s.frames t
  | .done v => if t = .documentEnd then some ⟨[], .done v⟩ else none

def step (s : State) (t : Token) : Option State :=
  accept? t (fillValue t (endLevelItems t (fillNode t s)))

end State

/-! ## Whole texts -/

/-- The value that tokens make. A document without a value is the empty scalar. -/
def ofTokens? (ts : List Token) : Option Node :=
  match ts.foldlM State.step ⟨[], .document⟩ with
  | some ⟨_, .done v⟩ => some v
  | some ⟨_, .document⟩ => some .empty
  | some ⟨_, .content⟩ => some .empty
  | _ => none

def read? (text : String) : Option Node := (tokens? text).bind ofTokens?

end DesignVars.Yaml
