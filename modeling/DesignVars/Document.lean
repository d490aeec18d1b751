import DesignVars.Files
import DesignVars.Json.Reader
import DesignVars.Store
import DesignVars.Yaml.Node

/-!
# Documents

The JSON forms of settings, snapshots, entries and stores, and the YAML form of settings. A field
that is empty or missing is left out where a reader takes it for empty. A settings file is JSON if
its name says so, and otherwise YAML.

* `Value.toJson`, `valueOf?`: a value with the name of its type;
* `Entry.toJson`, `Stored.toJson`, `storedOf?`: entries and stored variables;
* **`Store.document`**, **`Store.ofDocument?`**: a store as a text and back;
* `Settings.ofJson?`, `Snapshot.ofJson?`: the other documents that are read;
* `previewDocument`: entries, unresolved aliases and skipped declarations as a text;
* `textOfNode?`, `itemsOfNode?`, `fieldsOfNode?`: YAML values of a given shape; a value that is left
  out is an empty list or map;
* **`Settings.ofYaml?`**: the settings in a YAML text;
* `SettingsFormat`, `SettingsFormat.ofPath`, `Settings.ofText?`: the settings in a file.
-/

namespace DesignVars

open Json Fields

/-! ## Values -/

def Kind.ofName? (name : String) : Option Kind :=
  [Kind.number, .color, .alias].find? fun k => k.name == name

def Kind.toJson (k : Kind) : Json := .ofText k.name

def Rgba.toJson (c : Rgba) : Json :=
  .ofFields [("r", .ofFloat c.r), ("g", .ofFloat c.g), ("b", .ofFloat c.b), ("a", .ofFloat c.a)]

def rgbaOf? (v : Json) : Option Rgba :=
  match fields? ["r", "g", "b", "a"] v with
  | some [r, g, b, a] => do
    some ⟨← required floatOf? r, ← required floatOf? g, ← required floatOf? b,
      ← required floatOf? a⟩
  | _ => none

/-- A value without the name of its type. -/
def Value.content : Value → Json
  | .concrete (.number x) => .ofFloat x
  | .concrete (.color c) => c.toJson
  | .alias target => .ofText target

/-- A value with the name of its type. -/
def Value.toJson (v : Value) : Json := .ofFields [("type", v.kind.toJson), ("value", v.content)]

/-- A value of a given type. -/
def valueOfKind? (kind : Kind) (content : Json) : Option Value :=
  match kind with
  | .number => (floatOf? content).map fun x => .concrete (.number x)
  | .color => (rgbaOf? content).map fun c => .concrete (.color c)
  | .alias => (textOf? content).map .alias

/-- Holds for an object whose `value` comes before its `type`, so that it is read before its type
is known. -/
def valueFirst : Json → Bool
  | .object fields =>
    (fields.find? fun f => f.1 == some "type" || f.1 == some "value").any
      fun f => f.1 == some "value"
  | _ => false

/-- The value of a type and a content. Neither may be missing, not even in an array, and a content
that comes first has to be sound in all its parts. -/
def valueOf? (v : Json) : Option Value :=
  match fields? ["type", "value"] v with
  | some [some kind, some content] => do
    let kind ← choiceOf? Kind.ofName? kind
    if valueFirst v && !content.isClean then none else valueOfKind? kind content
  | _ => none

/-! ## Slots, entries and stored variables -/

/-- A field, unless it has nothing to say. -/
def field? {α : Type} (name : String) (f : α → Json) (v : Option α) : List (String × Json) :=
  (v.map fun x => (name, f x)).toList

/-- A map as an object, in the order of its keys. -/
def mapToJson {α : Type} (f : α → Json) (m : SortedMap α) : Json :=
  .ofFields (m.entries.map fun e => (e.1, f e.2))

/-- A map, unless it is empty. -/
def unlessEmpty {α : Type} (m : SortedMap α) : Option (SortedMap α) :=
  if m.isEmpty then none else some m

def scopesToJson (scopes : List Scope) : Json := .array (scopes.map fun s => .ofText s.name)

def scopesOf? (v : Json) : Option (List Scope) := listOf? (choiceOf? Scope.ofName?) v

def Slot.toJson (s : Slot) : Json :=
  .ofFields (("value", s.value.toJson) :: field? "alias_of" .ofText s.aliasOf)

def Entry.toJson (e : Entry) : Json :=
  .ofFields ([("name", .ofText e.name), ("hierarchical_name", .ofText e.path),
      ("kind", e.kind.toJson), ("value", e.value.toJson)] ++
    field? "modes" (mapToJson Slot.toJson) (unlessEmpty e.modes) ++
    field? "description" .ofText e.description ++
    [("scopes", scopesToJson e.scopes)])

def Stored.toJson (s : Stored) : Json :=
  .ofFields ([("name", .ofText s.name), ("kind", s.kind.toJson), ("value", s.value.toJson)] ++
    field? "alias_of" .ofText s.aliasOf ++
    field? "modes" (mapToJson Value.toJson) (unlessEmpty s.modes) ++
    field? "description" .ofText s.description ++
    [("scopes", scopesToJson s.scopes), ("code_syntax", .ofText s.codeSyntax)])

def storedOf? (v : Json) : Option Stored :=
  match fields? ["name", "kind", "value", "alias_of", "modes", "description", "scopes",
      "code_syntax"] v with
  | some [name, kind, value, aliasOf, modes, description, scopes, codeSyntax] => do
    some {
      name := ← required textOf? name
      kind := ← required (choiceOf? Kind.ofName?) kind
      value := ← required valueOf? value
      aliasOf := ← optional none (nullable textOf?) aliasOf
      modes := ← optional .empty (mapOf? valueOf?) modes
      description := ← optional none (nullable textOf?) description
      scopes := ← optional [] scopesOf? scopes
      codeSyntax := ← required textOf? codeSyntax }
  | _ => none

/-! ## Stores -/

def Collection.toJson (c : Collection) : Json :=
  .ofFields [("variables", .array (c.vars.map Stored.toJson))]

def collectionOf? (v : Json) : Option Collection :=
  match fields? ["variables"] v with
  | some [stored] => (required (listOf? storedOf?) stored).map Collection.mk
  | _ => none

def Store.toJson (s : Store) : Json :=
  .ofFields [("collections", mapToJson Collection.toJson s.collections)]

def storeOf? (v : Json) : Option Store :=
  match fields? ["collections"] v with
  | some [collections] => (required (mapOf? collectionOf?) collections).map Store.mk
  | _ => none

/-- The text that a store is saved as. -/
def Store.document (s : Store) : String := s.toJson.pretty

/-- The store that a text holds; a blank text holds an empty one. -/
def Store.ofDocument? (text : String) : Option Store :=
  if Text.isAllBlank text.toList then some {} else (Json.read? text).bind storeOf?

/-! ## Settings and snapshots -/

/-- The settings in a JSON value; all fields have defaults. -/
def settingsOf? (v : Json) : Option Settings :=
  match fields? ["collection", "item_scopes", "group_scopes"] v with
  | some [collection, itemScopes, groupScopes] => do
    some {
      collection := ← optional defaultCollection textOf? collection
      itemScopes := ← optional .empty (mapOf? scopesOf?) itemScopes
      groupScopes := ← optional .empty (mapOf? scopesOf?) groupScopes }
  | _ => none

def Settings.ofJson? (text : String) : Option Settings := (Json.read? text).bind settingsOf?

/-- The snapshot in a text: the concrete ones of its values. -/
def Snapshot.ofJson? (text : String) : Option Snapshot :=
  ((Json.read? text).bind (mapOf? valueOf?)).map Snapshot.ofValues

/-! ## Previews -/

/-- An alias that stands for nothing. -/
def Alias.toJson (a : Alias) : Json :=
  .ofFields ([("name", .ofText a.name), ("target", .ofText a.target)] ++
    field? "mode" .ofText a.mode)

/-- A declaration whose value was refused. -/
def Skipped.toJson (s : Skipped) : Json :=
  .ofFields [("name", .ofText s.name), ("value", .ofText s.value)]

/-- Entries, unresolved aliases and skipped declarations as a text. -/
def previewDocument (entries : List Entry) (unresolved : List Alias) (skipped : List Skipped) :
    String :=
  Json.pretty (.ofFields [("entries", .array (entries.map Entry.toJson)),
    ("unresolved", .array (unresolved.map Alias.toJson)),
    ("skipped", .array (skipped.map Skipped.toJson))])

end DesignVars

namespace DesignVars

open Yaml Fields

/-! ## YAML values -/

def textOfNode? : Node → Option String
  | .scalar text _ => some text
  | _ => none

def itemsOfNode? : Node → Option (List Node)
  | .list items => some items
  | .scalar "" true => some []
  | _ => none

/-- The fields of a map whose keys are scalars. -/
def fieldsOfNode? : Node → Option (List (String × Node))
  | .map fields => fields.mapM fun f => do some (← textOfNode? f.1, f.2)
  | .scalar "" true => some []
  | _ => none

def scopesOfNode? (v : Node) : Option (List Scope) := do
  (← itemsOfNode? v).mapM fun item => (textOfNode? item).bind Scope.ofName?

/-- Lists of scopes by names; of two with one name the later counts. -/
def scopeMapOfNode? (v : Node) : Option (SortedMap (List Scope)) := do
  let fields ← fieldsOfNode? v
  let fields ← fields.mapM fun f => do some (f.1, ← scopesOfNode? f.2)
  some (.ofList fields)

/-- The settings in a YAML value; all fields have defaults. -/
def settingsOfNode? (v : Node) : Option Settings := do
  let fields ← fieldsOfNode? v
  some {
    collection := ← optional defaultCollection textOfNode? (← once? fields "collection")
    itemScopes := ← optional .empty scopeMapOfNode? (← once? fields "item_scopes")
    groupScopes := ← optional .empty scopeMapOfNode? (← once? fields "group_scopes") }

/-- The settings in a YAML text; a blank text has none. -/
def Settings.ofYaml? (text : String) : Option Settings :=
  if Text.isAllBlank text.toList then some .default else (Yaml.read? text).bind settingsOfNode?

/-! ## Files -/

inductive SettingsFormat where
  | json
  | yaml
deriving DecidableEq, Repr

/-- The part of a file name behind its last point, unless nothing is before that point. -/
def extension? (name : List Char) : Option (List Char) :=
  let behind := (name.reverse.takeWhile (· != '.')).reverse
  if behind.length + 1 < name.length && name != ['.', '.'] then some behind else none

/-- The last part of a path that is not only a point. -/
def fileName (path : String) : List Char :=
  (((pathParts path).filter fun p => p != "" && p != ".").getLast?.getD "").toList

/-- A file is JSON if its name ends in `.json` in any case. -/
def SettingsFormat.ofPath (path : String) : SettingsFormat :=
  match extension? (fileName path) with
  | some e => if Text.lower e == "json".toList then .json else .yaml
  | none => .yaml

/-- The settings in a text of a format. -/
def Settings.ofText? (format : SettingsFormat) (text : String) : Option Settings :=
  match format with
  | .json => Settings.ofJson? text
  | .yaml => Settings.ofYaml? text

end DesignVars
