/-!
# Blanks, trimming and letter case

* `isBlank`: the characters with the property White_Space, the ones that trimming removes;
* `isSpace`: the five blanks that separate the parts of a stylesheet;
* `trim`, `trimmed`: a text without its outer blanks;
* `sameLetters`: equality up to the case of ASCII letters;
* `cut?`: a text in two at a character;
* `isDigit`, `isHexDigit`, `isLetter`, `natOfDigits`: ASCII digits and letters.
-/

namespace DesignVars.Text

/-! ## Blanks -/

/-- The characters with the property White_Space. -/
def isBlank (c : Char) : Bool :=
  let n := c.toNat
  (9 ≤ n && n ≤ 13) || n == 0x20 || n == 0x85 || n == 0xA0 || n == 0x1680 ||
  (0x2000 ≤ n && n ≤ 0x200A) || n == 0x2028 || n == 0x2029 || n == 0x202F || n == 0x205F ||
  n == 0x3000

/-- Space, tab, line feed, form feed and carriage return: the blanks of a stylesheet. -/
def isSpace (c : Char) : Bool :=
  c == ' ' || c == '\t' || c == '\n' || c == '\x0c' || c == '\r'

/-- Every blank of a stylesheet is a blank. -/
theorem isBlank_of_isSpace {c : Char} (h : isSpace c = true) : isBlank c = true := by
  simp only [isSpace, Bool.or_eq_true, beq_iff_eq] at h
  rcases h with (((rfl | rfl) | rfl) | rfl) | rfl <;> decide

/-! ## Trimming -/

/-- The characters from the first one that is not blank. -/
def trimStart (cs : List Char) : List Char := cs.dropWhile isBlank

/-- The characters up to the last one that is not blank. -/
def trimEnd (cs : List Char) : List Char := (cs.reverse.dropWhile isBlank).reverse

/-- The characters without the blanks at either end. -/
def trim (cs : List Char) : List Char := trimEnd (trimStart cs)

/-- The text without the blanks at either end. -/
def trimmed (s : String) : String := String.ofList (trim s.toList)

/-- Holds when nothing is left after trimming. -/
def isAllBlank (cs : List Char) : Bool := cs.all isBlank

/-! ## Letter case -/

/-- The text with its ASCII letters in lower case. -/
def lower (cs : List Char) : List Char := cs.map Char.toLower

/-- Equality up to the case of ASCII letters. -/
def sameLetters (s t : String) : Bool := lower s.toList == lower t.toList

/-! ## Parts of a text -/

theorem isPrefixOf?_cons (c d : Char) (start cs : List Char) :
    (c :: start).isPrefixOf? (d :: cs) = if c == d then start.isPrefixOf? cs else none := rfl

/-- What is left behind a start of a text is an end of it. -/
theorem suffix_of_isPrefixOf? {start cs rest : List Char} (h : start.isPrefixOf? cs = some rest) :
    rest <:+ cs := by
  induction start generalizing cs with
  | nil =>
    obtain rfl := Option.some.inj h
    exact List.suffix_rfl
  | cons c start ih =>
    cases cs with
    | nil => cases h
    | cons d cs =>
      rw [isPrefixOf?_cons] at h
      split at h
      · exact (ih h).trans (List.suffix_cons d cs)
      · cases h

/-- The text before the first `sep` and the text after it. -/
def cut? (sep : Char) : List Char → Option (List Char × List Char)
  | [] => none
  | c :: cs => if c = sep then some ([], cs) else (cut? sep cs).map fun p => (c :: p.1, p.2)

/-! ## Digits and letters -/

def isDigit (c : Char) : Bool := '0' ≤ c && c ≤ '9'

def digitValue (c : Char) : Nat := c.toNat - '0'.toNat

def hexValue? (c : Char) : Option Nat :=
  if isDigit c then some (digitValue c)
  else if 'a' ≤ c && c ≤ 'f' then some (c.toNat - 'a'.toNat + 10)
  else if 'A' ≤ c && c ≤ 'F' then some (c.toNat - 'A'.toNat + 10)
  else none

/-- The digits `0` to `9` and the letters `a` to `f` in either case. -/
def isHexDigit (c : Char) : Bool := (hexValue? c).isSome

def isLetter (c : Char) : Bool := ('a' ≤ c && c ≤ 'z') || ('A' ≤ c && c ≤ 'Z')

/-- The number that the digits write in base ten. -/
def natOfDigits (ds : List Char) : Nat := ds.foldl (fun n d => 10 * n + digitValue d) 0

end DesignVars.Text
