import DesignVars.Proofs.Clean
import DesignVars.Proofs.List
import Mathlib.Data.List.DropRight

/-!
# Stylesheets as trees

* `Sheet`: declarations, other statements and blocks, with blanks and comments between them;
* `Sheet.text`, `Sheet.declarations`: what is written, and what is declared where;
* `declaration?_written`: the declaration that a name and any value make;
* `Scanner.declarations_sheet`: inside a scan, a tree gives its declarations and nothing else;
* **`scan_text`**: so a scan of what is written finds what is declared.
-/

namespace DesignVars

open Text Css

/-- A stylesheet as a tree. Each constructor has one item and the rest behind it. -/
inductive Sheet where
  | nil
  /-- A blank between items. -/
  | space (c : Char) (h : isSpace c = true) (rest : Sheet)
  /-- A comment between items. -/
  | comment (text : List Char) (h : ¬ ['*', '/'] <:+: text) (rest : Sheet)
  | declaration (name : String) (value : List Char) (hn : isValidName name = true)
      (hv : Clean false value) (rest : Sheet)
  /-- A statement that does not begin like a declaration. -/
  | statement (text : List Char) (hc : Clean false text) (hn : ¬ ['-', '-'] <+: trim text)
      (rest : Sheet)
  | block (prelude : List Char) (hp : Clean false prelude) (body rest : Sheet)

/-- A name and a value as a statement, without a blank between them. -/
def written (name : String) (value : List Char) : List Char :=
  '-' :: '-' :: (name.toList ++ ':' :: value)

namespace Sheet

/-- The text of a stylesheet. -/
def text : Sheet → List Char
  | nil => []
  | space c _ rest => c :: rest.text
  | comment text _ rest => '/' :: '*' :: (text ++ '*' :: '/' :: rest.text)
  | declaration name value _ _ rest => written name value ++ ';' :: rest.text
  | statement text _ _ rest => text ++ ';' :: rest.text
  | block prelude _ body rest => prelude ++ '{' :: (body.text ++ '}' :: rest.text)

/-- The comment at the front, without outer blanks: nothing but blanks of the same line may stand
before it. -/
def leadingComment : Sheet → Option String
  | space c _ rest => if c = ' ' ∨ c = '\t' then rest.leadingComment else none
  | comment text _ _ => some (String.ofList (trim text))
  | nil | declaration .. | statement .. | block .. => none

/-- The declarations in order, where `preludes` stand before the braces of the blocks around the
stylesheet, innermost first. -/
def declarations (preludes : List String) : Sheet → List Declaration
  | nil => []
  | space _ _ rest | comment _ _ rest | statement _ _ _ rest => rest.declarations preludes
  | declaration name value _ _ rest =>
    { name
      value := String.ofList (trim value)
      comment := rest.leadingComment
      selector := preludes.head?
      atRule := preludes.find? fun p => p.toList.head? == some '@' } :: rest.declarations preludes
  | block prelude _ body rest =>
    body.declarations (String.ofList (trim prelude) :: preludes) ++ rest.declarations preludes

end Sheet

/-! ## Declarations as they are written -/

theorem trimEnd_append {front : List Char} (hne : front ≠ [])
    (hl : isBlank (front.getLast hne) = false) (cs : List Char) :
    trimEnd (front ++ cs) = front ++ trimEnd cs := by
  have hf : front.reverse.dropWhile isBlank = front.reverse := by
    obtain ⟨init, last, rfl⟩ := List.eq_nil_or_concat front |>.resolve_left hne
    simp_all
  simp only [trimEnd, List.reverse_append, List.dropWhile_append, hf]
  split_ifs with he
  · simp_all
  · simp

theorem trim_trimEnd (cs : List Char) : trim (trimEnd cs) = trim cs := by
  induction cs with
  | nil => rfl
  | cons c cs ih =>
    by_cases hc : isBlank c = true
    · have he : trimEnd (c :: cs) = if trimEnd cs = [] then [] else c :: trimEnd cs := by
        simp only [trimEnd, List.reverse_cons, List.dropWhile_append]
        by_cases hd : cs.reverse.dropWhile isBlank = [] <;> simp [hd, hc]
      rw [trim_blank_cons hc, ← ih, he]
      split_ifs with hn
      · rw [hn]
      · exact trim_blank_cons hc _
    · have he : trimEnd (c :: cs) = c :: trimEnd cs :=
        trimEnd_append (List.cons_ne_nil c []) (by simpa using hc) cs
      have hs : ∀ r, trim (c :: r) = trimEnd (c :: r) := fun r => by
        rw [trim, trimStart, List.dropWhile_cons_of_neg hc]
      rw [he, hs, hs, ← he]
      exact List.rdropWhile_idempotent isBlank (c :: cs)

theorem trim_concat {b : Char} (hb : isBlank b = true) (cs : List Char) :
    trim (cs ++ [b]) = trim cs := by
  have he : trimEnd (cs ++ [b]) = trimEnd cs := by
    rw [trimEnd, List.reverse_concat, List.dropWhile_cons_of_pos hb, trimEnd]
  rw [← trim_trimEnd, he, trim_trimEnd]

section Written

variable {name : String} (hn : isValidName name = true)

include hn

/-- A name and any value behind it make a declaration of that name with the value trimmed. -/
theorem declaration?_written (value : List Char) (preludes : List String) :
    declaration? preludes (written name value) = some {
      name
      value := String.ofList (trim value)
      comment := none
      selector := preludes.head?
      atRule := preludes.find? fun p => p.toList.head? == some '@' } := by
  have hname := fun c hc => isPlain_of_isNameLetter (isNameLetter_of_mem_toList hn c hc)
  have ht : trim (written name value) =
      ['-', '-'] ++ (name.toList ++ ':' :: trimEnd value) := by
    have hf : trimEnd (('-' :: '-' :: (name.toList ++ [':'])) ++ value) = _ :=
      trimEnd_append (by simp) (by simp [isBlank]) value
    simpa [written, trim, trimStart, isBlank] using hf
  have hc := cut?_append (fun c hc => (hname c hc).2.2) (trimEnd value)
  have htn : trim name.toList = name.toList := trim_of_not_blank fun c hc => (hname c hc).2.1
  simp only [declaration?, ht, isPrefixOf?_append, hc, htn, trim_trimEnd, String.ofList_toList, hn,
    if_true]

theorem clean_written {value : List Char} (hv : Clean false value) :
    Clean false (written name value) := by
  have hfront : ∀ c ∈ '-' :: '-' :: (name.toList ++ [':']), isPlain c = true := by
    intro c hc
    simp only [List.mem_cons, List.mem_append, List.not_mem_nil, or_false] at hc
    rcases hc with rfl | rfl | hc | rfl
    · decide
    · decide
    · exact (isPlain_of_isNameLetter (isNameLetter_of_mem_toList hn c hc)).1
    · decide
  have hw : written name value = ('-' :: '-' :: (name.toList ++ [':'])) ++ value := by
    simp [written]
  rw [hw]
  exact clean_append hfront hv

end Written

/-! ## Scanning -/

theorem declaration?_eq_none {text : List Char} (h : ¬ ['-', '-'] <+: trim text)
    (preludes : List String) : declaration? preludes text = none := by
  simp only [declaration?, isPrefixOf?_eq_none_iff.2 h]

theorem trailingComment_clean {nested : Bool} {cs : List Char} (h : Clean nested cs) {c : Char}
    (hc : c ≠ ' ' ∧ c ≠ '\t') (hs : c ≠ '/' ∧ c ≠ '*') (rest : List Char) :
    (trailingComment (cs ++ c :: rest)).1 = none := by
  induction h with
  | nil => exact trailingComment_cons hc fun he => absurd he hs.1
  | @char _ d cs hd hn hslash h ih =>
    rw [List.cons_append]
    by_cases hb : d = ' ' ∨ d = '\t'
    · rw [trailingComment_blank hb, ih]
    · refine trailingComment_cons (not_or.1 hb) fun he => ?_
      cases cs with
      | nil => simp [hs.2]
      | cons e cs => exact hslash he
  | string hq _ _ _ =>
    exact trailingComment_cons (by rcases hq with rfl | rfl <;> decide)
      (by rcases hq with rfl | rfl <;> simp)
  | group => exact trailingComment_cons (by decide) (by simp)

namespace Sheet

/-- The comment that a declaration takes along is the one at the front of what stands behind it. -/
theorem trailingComment_text (s : Sheet) {rest : List Char}
    (hr : (trailingComment rest).1 = none) :
    (trailingComment (s.text ++ rest)).1 = s.leadingComment := by
  induction s with
  | nil => exact hr
  | space c h s ih =>
    rw [text, leadingComment, List.cons_append]
    split_ifs with hc
    · rw [trailingComment_blank hc, ih]
    · refine trailingComment_cons (not_or.1 hc) ?_
      rintro rfl
      cases h
  | comment text h s _ =>
    rw [Sheet.text, List.cons_append, List.cons_append, List.append_assoc, List.cons_append,
      List.cons_append]
    exact trailingComment_comment h _
  | declaration => exact trailingComment_cons (by decide) (by simp)
  | statement text hc _ s _ =>
    rw [Sheet.text, List.append_assoc, List.cons_append]
    exact trailingComment_clean hc (by decide) (by decide) _
  | block prelude hp body s _ _ =>
    rw [Sheet.text, List.append_assoc, List.cons_append]
    exact trailingComment_clean hp (by decide) (by decide) _

end Sheet

/-- **Inside a scan, a tree gives its declarations and nothing else.** -/
theorem Scanner.declarations_sheet (s : Sheet) : ∀ (preludes : List String) {rest : List Char},
    (trailingComment rest).1 = none → (mk (s.text ++ rest) preludes).declarations =
      s.declarations preludes ++ (mk rest preludes).declarations := by
  induction s with
  | nil => exact fun _ _ _ => rfl
  | space c h s ih =>
    intro preludes rest hr
    rw [Sheet.text, List.cons_append, declarations_congr (skipTrivia_space h _), ih preludes hr]
    rfl
  | comment text h s ih =>
    intro preludes rest hr
    have hs := skipTrivia_comment h (s.text ++ rest)
    rw [Sheet.text, List.cons_append, List.cons_append, List.append_assoc, List.cons_append,
      List.cons_append, declarations_congr hs, ih preludes hr]
    rfl
  | declaration name value hn hv s ih =>
    intro preludes rest hr
    rw [Sheet.text, List.append_assoc, List.cons_append,
      declarations_declaration (clean_written hn hv) _ _ (declaration?_written hn value preludes),
      ih preludes hr, s.trailingComment_text hr]
    rfl
  | statement text hc hn s ih =>
    intro preludes rest hr
    rw [Sheet.text, List.append_assoc, List.cons_append,
      declarations_statement hc _ _ (declaration?_eq_none hn preludes), ih preludes hr]
    rfl
  | block prelude hp body s ihb ih =>
    intro preludes rest hr
    -- the last declaration of the body takes no comment from behind the brace
    have hclose : (trailingComment ('}' :: (s.text ++ rest))).1 = none :=
      trailingComment_cons (by decide) (by simp)
    rw [Sheet.text, List.append_assoc, List.cons_append, List.append_assoc, List.cons_append,
      declarations_block hp, ihb _ hclose, declarations_close, List.tail_cons, ih preludes hr,
      Sheet.declarations, List.append_assoc]

/-- **A scan of a stylesheet that is written as a tree finds exactly the declarations of the tree**,
each with its value, the comment behind it and the blocks around it. -/
theorem scan_text (s : Sheet) : scan (String.ofList s.text) = s.declarations [] := by
  have h : (Scanner.mk (s.text ++ []) []).declarations = _ := Scanner.declarations_sheet s [] rfl
  rw [List.append_nil, Scanner.declarations_nil, List.append_nil] at h
  rw [scan, Scanner.ofText, String.toList_ofList, h]

end DesignVars
