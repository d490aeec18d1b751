import DesignVars.Entry

/-!
# Stores

A store keeps collections of variables, each under its path.

* `Stored`, `Collection`, `Store`: what is kept;
* `Store.existing`: the values of a store as a snapshot;
* `StoreM`: computations that change a store and may refuse an entry; `checkAll`, `writeEntry`;
* **`Store.apply`**: takes entries into a collection, unless one of them has another type than the
  variable it would replace;
* **`runImport`**: a stylesheet read against a store, finalized, and taken into it.
-/

namespace DesignVars

/-! ## What is kept -/

/-- A variable as a store keeps it. -/
structure Stored where
  name : String
  kind : Kind
  value : Value
  /-- The path of the variable that the base value is an alias of. -/
  aliasOf : Option String
  modes : SortedMap Value
  description : Option String
  scopes : List Scope
  codeSyntax : String
deriving BEq

/-- The stored form of an entry. -/
def Stored.ofEntry (e : Entry) : Stored where
  name := e.path
  kind := e.kind
  value := e.value.value
  aliasOf := e.value.aliasOf.map pathOfName
  modes := e.modes.mapValues fun _ s => s.value
  description := e.description
  scopes := e.scopes
  codeSyntax := e.codeSyntax

/-- Variables in the order in which they were added. -/
structure Collection where
  vars : List Stored := []
deriving BEq

/-- The first variable of that path. -/
def Collection.get? (c : Collection) (name : String) : Option Stored :=
  c.vars.find? fun v => v.name == name

/-- The list with `v` in the place of the first variable of its path, or at the end. -/
def putStored (v : Stored) : List Stored → List Stored
  | [] => [v]
  | w :: ws => if w.name = v.name then v :: ws else w :: putStored v ws

/-- The collection with a variable in its place. -/
def Collection.put (c : Collection) (v : Stored) : Collection := ⟨putStored v c.vars⟩

structure Store where
  collections : SortedMap Collection := .empty
deriving BEq

instance : Inhabited Store := ⟨{}⟩

namespace Store

/-- The collection of that name; one that does not exist is empty. -/
def collection (s : Store) (name : String) : Collection := (s.collections.get? name).getD {}

/-- The values of all variables under their paths and under the names in their code syntax, one
collection after the other. -/
def existing (s : Store) : Snapshot :=
  (s.collections.values.flatMap Collection.vars).foldl
    (fun t v => t.insertWithCode v.name (some v.codeSyntax) v.value) .empty

end Store

/-! ## Taking entries in -/

/-- An entry has another type than the variable it would replace. -/
structure TypeMismatch where
  name : String
  stored : Kind
  incoming : Kind
deriving DecidableEq, Repr

/-- The mismatch as a user reads it. -/
def TypeMismatch.message (m : TypeMismatch) : String :=
  s!"variable '{m.name}' is stored as {m.stored.name}, cannot update it with a " ++
    s!"{m.incoming.name} value"

/-- The mismatch of an entry with a collection. -/
def Collection.mismatch? (c : Collection) (e : Entry) : Option TypeMismatch :=
  (c.get? e.path).bind fun v => if v.kind = e.kind then none else some ⟨e.path, v.kind, e.kind⟩

/-- What an import did to a collection. -/
structure Summary where
  collection : String
  added : Nat
  updated : Nat
deriving DecidableEq, Repr

def Summary.text (s : Summary) : String :=
  if 0 < s.added && 0 < s.updated then
    s!"Added {s.added} and updated {s.updated} variables in {s.collection}"
  else if 0 < s.added then s!"Added {s.added} variables to {s.collection}"
  else s!"Updated {s.updated} variables in {s.collection}"

/-- Computations that change a store and may refuse an entry. A refusal, too, comes with the store
as it is by then. -/
abbrev StoreM := ExceptT TypeMismatch (StateM Store)

/-- What a computation gives or refuses, and the store afterwards. -/
def StoreM.runOn {α : Type} (x : StoreM α) (s : Store) : Except TypeMismatch α × Store :=
  (x.run.run s).run

/-- Refuses the first entry that has another type than the variable it would replace. -/
def checkAll (c : Collection) : List Entry → StoreM Unit
  | [] => return
  | e :: es => do
    match c.mismatch? e with
    | some m => throw m
    | none => checkAll c es

/-- Writes an entry into a collection, where it replaces the variable of its path or comes last,
and counts it. -/
def writeEntry (name : String) (summary : Summary) (e : Entry) : StoreM Summary := do
  let s ← get
  let c := s.collection name
  set (⟨s.collections.insert name (c.put (.ofEntry e))⟩ : Store)
  return if (c.get? e.path).isSome then { summary with updated := summary.updated + 1 }
    else { summary with added := summary.added + 1 }

/-- Writes entries into a collection, which exists from then on. All of them are checked before
anything is written. -/
def applyAll (name : String) (entries : List Entry) : StoreM Summary := do
  checkAll ((← get).collection name) entries
  modify fun s => ⟨s.collections.insert name (s.collection name)⟩
  entries.foldlM (writeEntry name) ⟨name, 0, 0⟩

/-- Takes entries into a collection: the counts or the refusal, and the store afterwards. -/
def Store.apply (s : Store) (name : String) (entries : List Entry) :
    Except TypeMismatch Summary × Store :=
  (applyAll name entries).runOn s

/-! ## Imports -/

structure Import where
  report : Report
  entries : List Entry
  /-- The counts, unless an entry has the wrong type, and the store afterwards. -/
  result : Except TypeMismatch Summary × Store

/-- Imports a stylesheet. Its aliases may refer to what the store holds already. -/
def runImport (css : String) (settings : Settings) (s : Store) : Import :=
  let report := readStylesheet css s.existing
  let entries := finalize settings report.vars
  ⟨report, entries, s.apply settings.collection entries⟩

/-- What is logged of an import. -/
def Import.log (settings : Settings) (i : Import) : List Record :=
  i.report.log ++ finalizeLog settings i.report.vars ++
    match i.result.1 with
    | .ok summary => [.info importSource summary.text]
    | .error _ => []

end DesignVars
