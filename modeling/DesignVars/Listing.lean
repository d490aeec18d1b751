import DesignVars.Store

/-!
# Results as a terminal shows them

* `Ink`, `paint`: the styles of the parts of a listing;
* `previewText`: the entries of a stylesheet, one line for each value, then the declarations and the
  aliases that came to nothing;
* `importText`: what an import did.
-/

namespace DesignVars

/-! ## Styles -/

/-- The parts of a listing that have a style. -/
inductive Ink where
  | name
  | kind
  | value
  | muted
  | header
  | warning
deriving DecidableEq, Repr

/-- The number of the style for a terminal: cyan, yellow, green, dim, bold, red. -/
def Ink.code : Ink → Nat
  | .name => 36
  | .kind => 33
  | .value => 32
  | .muted => 2
  | .header => 1
  | .warning => 31

/-- A text in a style if the output is colored. -/
def paint (color : Bool) (ink : Ink) (text : String) : String :=
  if color then s!"\x1b[{ink.code}m{text}\x1b[0m" else text

/-! ## Columns -/

/-- The text with blanks behind it up to a width. -/
def padEnd (width : Nat) (text : String) : String :=
  String.ofList (text.toList ++ List.replicate (width - text.length) ' ')

/-- The text with blanks before it up to a width. -/
def padStart (width : Nat) (text : String) : String :=
  String.ofList (List.replicate (width - text.length) ' ' ++ text.toList)

def nameWidth (entries : List Entry) : Nat :=
  entries.foldl (fun width e => max width e.name.utf8ByteSize) 0

/-! ## Lines -/

/-- The lines, each with its end. -/
def unlines (lines : List String) : String := String.join (lines.map (· ++ "\n"))

/-- The line of a base value, with its alias and the scopes. -/
def entryLine (color : Bool) (width : Nat) (e : Entry) : String :=
  "  " ++ paint color .name (padEnd width e.name) ++
  "  " ++ paint color .kind (padEnd 5 e.kind.name) ++
  "  " ++ paint color .value e.value.value.text ++
  (match e.value.aliasOf with
    | some target => " " ++ paint color .muted s!"-> {target}"
    | none => "") ++
  if e.scopes.isEmpty then "" else "  [" ++ ", ".intercalate (e.scopes.map Scope.name) ++ "]"

/-- The line of the value of a mode. -/
def modeLine (color : Bool) (width : Nat) (mode : String) (s : Slot) : String :=
  "  " ++ paint color .muted (padStart width mode) ++ "  " ++ paint color .value s.value.text

def entryLines (color : Bool) (width : Nat) (e : Entry) : List String :=
  entryLine color width e :: e.modes.entries.map fun m => modeLine color width m.1 m.2

/-- A heading behind an empty line, and what it is about, unless that is nothing. -/
def sectionLines {α : Type} (heading : Nat → String) (line : α → String) (xs : List α) :
    List String :=
  if xs.isEmpty then [] else "" :: heading xs.length :: xs.map line

/-- The lines on declarations whose values were refused. -/
def skippedLines (color : Bool) (skipped : List Skipped) : List String :=
  sectionLines (fun n => paint color .header s!"Skipped {n} declaration(s):")
    (fun s => s!"  --{s.name}: " ++ paint color .muted s.value) skipped

/-- The lines on aliases that stand for nothing. -/
def unresolvedLines (color : Bool) (unresolved : List Alias) : List String :=
  sectionLines (fun n => paint color .warning s!"Unresolved {n} alias(es):")
    (fun a => "  " ++ a.text) unresolved

/-! ## Listings -/

def previewText (color : Bool) (entries : List Entry) (unresolved : List Alias)
    (skipped : List Skipped) : String :=
  unlines (paint color .header s!"{entries.length} variable(s)" ::
    entries.flatMap (entryLines color (nameWidth entries)) ++
    skippedLines color skipped ++ unresolvedLines color unresolved)

def importText (color : Bool) (summary : Summary) (unresolved : List Alias) : String :=
  unlines (paint color .header summary.text :: unresolvedLines color unresolved)

end DesignVars
