import DesignVars.Declaration

/-!
# Where a declaration stands

A declaration gives a base value, or the value of one mode, such as `dark`, depending on the
blocks around it.

* `Placement`: base value, value of a mode, or in a block that looks like a mode but names none;
* `modeOfAttribute?`, `Placement.ofSelector`: modes named by a data attribute of the selector;
* `modeOfQuery?`, `modeOfAtRule?`: modes named by a color-scheme media query;
* **`Declaration.placement`**: the selector decides first, then the media query.
-/

namespace DesignVars

open Text Css

/-- How a declaration counts. -/
inductive Placement where
  /-- As a base value. -/
  | topLevel
  /-- As the value of a mode. -/
  | mode (name : String)
  /-- Not at all: an attribute of the selector names no mode. -/
  | malformed
deriving DecidableEq, Repr

/-- The mode of what is light. -/
def lightMode : String := "light"

/-- The mode of what is dark. -/
def darkMode : String := "dark"

/-! ## Selectors -/

/-- Holds for `data-` with something behind it. -/
def isDataAttribute (name : String) : Bool :=
  match ['d', 'a', 't', 'a', '-'].isPrefixOf? name.toList with
  | some rest => !rest.isEmpty
  | none => false

/-- The mode that the body of an attribute selector names: a data attribute, an equals sign and an
identifier or a string that is not blank. -/
def modeOfAttribute? : List Component → Option String
  | [.token (.ident name), .token (.delim '='), .token value] =>
    if isDataAttribute name then
      match value with
      | .ident mode | .quoted mode => if isAllBlank mode.toList then none else some mode
      | _ => none
    else none
  | _ => none

/-- The bodies of the square brackets among the components. -/
def attributes (cs : List Component) : List (List Component) :=
  cs.filterMap fun
    | .block .square body => some body
    | _ => none

/-- The placement that a selector gives: the first attribute that names a mode decides. -/
def Placement.ofSelector (selector : String) : Placement :=
  let found := attributes (components selector)
  match found.findSome? modeOfAttribute? with
  | some m => .mode m
  | none => if found.isEmpty then .topLevel else .malformed

/-! ## Media queries -/

/-- The mode that the body of a media feature names. -/
def modeOfFeature? : List Component → Option String
  | [.token (.ident feature), .token .colon, .token (.ident scheme)] =>
    if sameLetters feature "prefers-color-scheme" && (scheme == lightMode || scheme == darkMode)
    then some scheme else none
  | _ => none

/-- The bodies of the parentheses among the components. -/
def features (cs : List Component) : List (List Component) :=
  cs.filterMap fun
    | .block .round body => some body
    | _ => none

/-- The mode that a media query names: its last color-scheme feature decides. -/
def modeOfQuery? (query : String) : Option String :=
  ((features (components query)).filterMap modeOfFeature?).getLast?

/-- The mode that the text before the brace of an at-rule names. -/
def modeOfAtRule? (prelude : String) : Option String :=
  ("@media".toList.isPrefixOf? prelude.toList).bind fun query => modeOfQuery? (String.ofList query)

/-! ## Declarations -/

/-- The placement that the selector gives; if that is the top level, a color-scheme query may
still make it a mode. -/
def Declaration.placement (d : Declaration) : Placement :=
  match d.selector.elim .topLevel Placement.ofSelector with
  | .topLevel => (d.atRule.bind modeOfAtRule?).elim .topLevel .mode
  | p => p

end DesignVars
