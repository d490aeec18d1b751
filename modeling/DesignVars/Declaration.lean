import DesignVars.Css.Token

/-!
# Declarations of custom properties

A declaration is a statement `--name: value` of a stylesheet, with the blocks around it and the
comment behind it. The scanner finds the declarations of any text, however broken.

* `Declaration`, `isValidName`: a declaration, and what its name may be;
* `readStatement`: a statement up to the `;`, `{` or `}` that ends it;
* `Scanner`, `Scanner.step`, `Scanner.next`: one statement, or the next declaration, and where to
  go on; every step takes characters (**`Scanner.step_length_lt`**);
* **`scan`**: all declarations of a text, in order.
-/

namespace DesignVars

open Text Css

/-! ## Declarations -/

/-- A custom property with its value, where it stands and what is said about it. -/
structure Declaration where
  /-- The name without the hyphens in front. -/
  name : String
  /-- The value as written, without comments and outer blanks. -/
  value : String
  /-- The comment behind the declaration on the same line. -/
  comment : Option String
  /-- What stands before the brace of the innermost block around the declaration. -/
  selector : Option String
  /-- What stands before the brace of the innermost block that begins with `@`. -/
  atRule : Option String
deriving DecidableEq, Repr

/-- Characters of names: ASCII letters and digits, hyphens and underscores. -/
def isNameLetter (c : Char) : Bool := isLetter c || isDigit c || c == '-' || c == '_'

/-- A name has at least one character, and none but name characters. -/
def isValidName (name : String) : Bool := !name.isEmpty && name.toList.all isNameLetter

/-- A comment describes the declaration unless it is empty or begins with a hyphen, as remarks to
a program do. -/
def Declaration.description (d : Declaration) : Option String :=
  d.comment.filter fun c => !c.isEmpty && c.toList.head? != some '-'

/-! ## Statements -/

/-- What ends a statement. -/
inductive Ending where
  | semicolon
  | openBrace
  | closeBrace
  | endOfText
deriving DecidableEq, Repr

/-- The number of characters that an ending is made of. -/
def Ending.width : Ending → Nat
  | .endOfText => 0
  | _ => 1

/-- The rest of a string that began with `quote`, and what follows it. A backslash takes the
character after it along. -/
def takeString (quote : Char) : List Char → List Char × List Char
  | [] => ([], [])
  | ['\\'] => (['\\'], [])
  | '\\' :: c :: r => ('\\' :: c :: (takeString quote r).1, (takeString quote r).2)
  | c :: r =>
    if c = quote then ([c], r) else (c :: (takeString quote r).1, (takeString quote r).2)

/-- A string and what follows it are the text. -/
theorem takeString_append (quote : Char) (cs : List Char) :
    (takeString quote cs).1 ++ (takeString quote cs).2 = cs := by
  fun_induction takeString quote cs <;> simp_all

theorem takeString_length (quote : Char) (cs : List Char) :
    (takeString quote cs).1.length + (takeString quote cs).2.length = cs.length := by
  rw [← List.length_append, takeString_append]

/-- The parenthesis depth behind a character. -/
def depthAfter (depth : Nat) (c : Char) : Nat :=
  if c = '(' then depth + 1 else if c = ')' then depth - 1 else depth

/-- The text of a statement with a blank for every comment, what ends it, and what follows that.
Between parentheses and in strings nothing ends it. -/
def readStatement (depth : Nat) : List Char → List Char × Ending × List Char
  | [] => ([], .endOfText, [])
  | '/' :: '*' :: r =>
    (' ' :: (readStatement depth (afterComment r).1).1,
      (readStatement depth (afterComment r).1).2)
  | c :: r =>
    if c = '"' || c = '\'' then
      (c :: (takeString c r).1 ++ (readStatement depth (takeString c r).2).1,
        (readStatement depth (takeString c r).2).2)
    else if depth = 0 && c = ';' then ([], .semicolon, r)
    else if depth = 0 && c = '{' then ([], .openBrace, r)
    else if depth = 0 && c = '}' then ([], .closeBrace, r)
    else
      (c :: (readStatement (depthAfter depth c) r).1, (readStatement (depthAfter depth c) r).2)
termination_by cs => cs.length
decreasing_by
  all_goals
    have := (afterComment_suffix r).length_le
    try have := takeString_length c r
    simp
    try omega

/-- A statement, its ending and what follows are at most as long as the text. -/
theorem readStatement_length (depth : Nat) (cs : List Char) :
    (readStatement depth cs).1.length + (readStatement depth cs).2.1.width +
      (readStatement depth cs).2.2.length ≤ cs.length := by
  fun_induction readStatement depth cs with
  | case1 => simp [Ending.width]
  | case2 depth r ih =>
    have := (afterComment_suffix r).length_le
    simp only [List.length_cons]
    omega
  | case3 depth c r _ _ ih =>
    have := takeString_length c r
    simp only [List.length_cons, List.length_append]
    omega
  | case4 => simp [Ending.width]; omega
  | case5 => simp [Ending.width]; omega
  | case6 => simp [Ending.width]; omega
  | case7 depth c r _ _ _ _ _ ih =>
    simp only [List.length_cons]
    omega

/-! ## The comment behind a declaration -/

/-- The text up to the first `*/`, or all of it. -/
def commentText : List Char → List Char
  | '*' :: '/' :: _ => []
  | c :: r => c :: commentText r
  | [] => []

/-- The comment that begins on the same line, without outer blanks, and what is left after it. -/
def trailingComment (cs : List Char) : Option String × List Char :=
  match cs.dropWhile fun c => c == ' ' || c == '\t' with
  | '/' :: '*' :: r => (some (String.ofList (trim (commentText r))), (afterComment r).1)
  | _ => (none, cs)

theorem trailingComment_suffix (cs : List Char) : (trailingComment cs).2 <:+ cs := by
  unfold trailingComment
  have h := List.dropWhile_suffix (l := cs) fun c => c == ' ' || c == '\t'
  split
  · rename_i r hr
    rw [hr] at h
    exact ((afterComment_suffix r).trans (List.suffix_append ['/', '*'] r)).trans h
  · exact List.suffix_rfl

/-! ## The scanner -/

/-- Where a scan has got to: the text that is left, and what stands before the braces of the open
blocks, innermost first. -/
structure Scanner where
  rest : List Char
  preludes : List String
deriving DecidableEq, Repr

def Scanner.ofText (text : String) : Scanner := ⟨text.toList, []⟩

/-- The declaration that a statement makes: two hyphens, a valid name, a colon and the value. -/
def declaration? (preludes : List String) (statement : List Char) : Option Declaration :=
  match ['-', '-'].isPrefixOf? (trim statement) with
  | none => none
  | some body =>
    match cut? ':' body with
    | none => none
    | some (name, value) =>
      let name := String.ofList (trim name)
      if isValidName name then
        some {
          name
          value := String.ofList (trim value)
          comment := none
          selector := preludes.head?
          atRule := preludes.find? fun p => p.toList.head? == some '@' }
      else none

/-- Reads one statement: the declaration it makes, if it makes one, and where the scan goes on. A
statement at the end of a block leaves the brace for later. Nothing is read at the end. -/
def Scanner.step (s : Scanner) : Option (Option Declaration × Scanner) :=
  match skipTrivia s.rest with
  | [] => none
  | c :: r =>
    let (text, ending, after) := readStatement 0 (c :: r)
    match ending with
    | .openBrace => some (none, ⟨after, String.ofList (trim text) :: s.preludes⟩)
    | .closeBrace =>
      if isAllBlank text then some (none, ⟨after, s.preludes.tail⟩)
      else some (declaration? s.preludes text, ⟨'}' :: after, s.preludes⟩)
    | .endOfText => some (declaration? s.preludes text, ⟨[], s.preludes⟩)
    | .semicolon =>
      match declaration? s.preludes text with
      | some d =>
        let (comment, after) := trailingComment after
        some (some { d with comment }, ⟨after, s.preludes⟩)
      | none => some (none, ⟨after, s.preludes⟩)

/-- **Every statement takes characters.** -/
theorem Scanner.step_length_lt {s s' : Scanner} {found : Option Declaration}
    (h : s.step = some (found, s')) : s'.rest.length < s.rest.length := by
  unfold Scanner.step at h
  have h1 := (skipTrivia_suffix s.rest).length_le
  split at h
  · cases h
  · rename_i c r front
    have h2 := readStatement_length 0 (c :: r)
    rw [front] at h1
    rcases hst : readStatement 0 (c :: r) with ⟨text, ending, after⟩
    rw [hst] at h h2
    simp only [List.length_cons] at h1 h2
    cases ending <;> simp only [Ending.width] at h h2
    · split at h
      · have h3 := (trailingComment_suffix after).length_le
        simp only [Option.some.injEq, Prod.mk.injEq] at h
        rw [← h.2]
        simp only
        omega
      · simp only [Option.some.injEq, Prod.mk.injEq] at h
        rw [← h.2]
        simp only
        omega
    · simp only [Option.some.injEq, Prod.mk.injEq] at h
      rw [← h.2]
      simp only
      omega
    · split at h
      · simp only [Option.some.injEq, Prod.mk.injEq] at h
        rw [← h.2]
        simp only
        omega
      · rename_i hblank
        have : 0 < text.length := List.length_pos_iff.2 fun ht => hblank (by rw [ht]; rfl)
        simp only [Option.some.injEq, Prod.mk.injEq] at h
        rw [← h.2]
        simp only [List.length_cons]
        omega
    · simp only [Option.some.injEq, Prod.mk.injEq] at h
      rw [← h.2]
      simp only [List.length_nil]
      omega

/-- The next declaration, and where the scan goes on after it. -/
def Scanner.next (s : Scanner) : Option (Declaration × Scanner) :=
  match _read : s.step with
  | none => none
  | some (some d, s') => some (d, s')
  | some (none, s') => s'.next
termination_by s.rest.length
decreasing_by exact Scanner.step_length_lt _read

def Scanner.declarations (s : Scanner) : List Declaration :=
  match _read : s.step with
  | none => []
  | some (found, s') => found.toList ++ s'.declarations
termination_by s.rest.length
decreasing_by exact Scanner.step_length_lt _read

def scan (text : String) : List Declaration := (Scanner.ofText text).declarations

end DesignVars
