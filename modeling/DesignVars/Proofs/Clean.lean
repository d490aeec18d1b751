import DesignVars.Proofs.Declaration

/-!
# Clean texts and the space between statements

A text is clean if its strings are complete, its parentheses match and no comment begins in it. Such
a text is read as one statement, whatever stands in its strings and between its parentheses.

* `Quoted`, `Clean`: what may stand in a string, and clean texts;
* `readStatement_clean`: a clean text is read as it is, up to what follows it;
* `skipTrivia_space`, `skipTrivia_comment`, `skipTrivia_clean`: what is skipped before a statement;
* **`Scanner.declarations_declaration`**, `Scanner.declarations_statement`,
  `Scanner.declarations_block`, `Scanner.declarations_close`: what a scan does at the end of a clean
  text, and how it goes on.
-/

namespace DesignVars

open Text Css

/-- What may stand between two quotes: a backslash takes the character after it along, and without
one there is no quote. -/
inductive Quoted (quote : Char) : List Char → Prop
  | nil : Quoted quote []
  | char {c : Char} {cs : List Char} (hq : c ≠ quote) (hb : c ≠ '\\') (h : Quoted quote cs) :
      Quoted quote (c :: cs)
  | escape {c : Char} {cs : List Char} (h : Quoted quote cs) : Quoted quote ('\\' :: c :: cs)

/-- Strings, groups in parentheses and other characters, without `/*` outside of strings. Semicolons
and braces stand only in strings and, if the text is `nested`, between parentheses. -/
inductive Clean : (nested : Bool) → List Char → Prop
  | nil {nested : Bool} : Clean nested []
  | char {nested : Bool} {c : Char} {cs : List Char} (hc : c ∉ ['"', '\'', '(', ')'])
      (hn : nested = true ∨ c ∉ [';', '{', '}']) (hs : c = '/' → cs.head? ≠ some '*')
      (h : Clean nested cs) : Clean nested (c :: cs)
  | string {nested : Bool} {quote : Char} {body cs : List Char} (hq : quote = '"' ∨ quote = '\'')
      (hb : Quoted quote body) (h : Clean nested cs) : Clean nested (quote :: (body ++ quote :: cs))
  | group {nested : Bool} {body cs : List Char} (hb : Clean true body) (h : Clean nested cs) :
      Clean nested ('(' :: (body ++ ')' :: cs))

theorem clean_append {cs : List Char} (h : ∀ c ∈ cs, isPlain c = true) {nested : Bool}
    {rest : List Char} (hr : Clean nested rest) : Clean nested (cs ++ rest) := by
  induction cs with
  | nil => exact hr
  | cons c cs ih =>
    obtain ⟨hc, h⟩ := List.forall_mem_cons.1 h
    simp only [isPlain, decide_eq_true_eq, List.mem_cons, List.not_mem_nil, or_false, not_or] at hc
    exact .char (by simp [hc]) (.inr (by simp [hc])) (by simp [hc]) (ih h)

theorem clean_of_plain {cs : List Char} (h : ∀ c ∈ cs, isPlain c = true) {nested : Bool} :
    Clean nested cs := by
  have := clean_append h (Clean.nil : Clean nested [])
  rwa [List.append_nil] at this

/-! ## Reading a clean text -/

theorem takeString_quoted {quote : Char} (hq : quote ≠ '\\') {body : List Char}
    (h : Quoted quote body) (rest : List Char) :
    takeString quote (body ++ quote :: rest) = (body ++ [quote], rest) := by
  induction h with
  | nil => simp [takeString.eq_4 quote quote rest (by simp [hq]) (by simp [hq])]
  | @char c cs hc hb _ ih =>
    rw [List.cons_append, takeString.eq_4 _ _ _ (by simp [hb]) (by simp [hb]), if_neg hc, ih]
    rfl
  | escape _ ih =>
    rw [List.cons_append, List.cons_append, takeString, ih]
    rfl

theorem readStatement_char {depth : Nat} {c : Char} {cs : List Char} (hq : c ∉ ['"', '\''])
    (hd : 0 < depth ∨ c ∉ [';', '{', '}']) (hs : c = '/' → cs.head? ≠ some '*') :
    readStatement depth (c :: cs) = (c :: (readStatement (depthAfter depth c) cs).1,
      (readStatement (depthAfter depth c) cs).2) := by
  have hcomment : ∀ r, c :: cs = '/' :: '*' :: r → False := by
    rintro r ⟨⟩
    exact hs rfl rfl
  simp only [List.mem_cons, List.not_mem_nil, or_false, not_or] at hq hd
  rw [readStatement.eq_3 _ _ _ fun r hc hr => hcomment r (by rw [hc, hr])]
  rcases hd with hd | hd
  · have : depth ≠ 0 := by omega
    simp [hq, this]
  · simp [hq, hd]

/-- **A clean text is read as it is**, and reading goes on after it. -/
theorem readStatement_clean {nested : Bool} {cs : List Char} (h : Clean nested cs) :
    ∀ {depth : Nat} {rest : List Char}, (nested = true → 0 < depth) → rest.head? ≠ some '*' →
      readStatement depth (cs ++ rest) =
        (cs ++ (readStatement depth rest).1, (readStatement depth rest).2) := by
  induction h with
  | nil => exact fun _ _ => rfl
  | @char nested c cs hc hn hs h ih =>
    intro depth rest hd hr
    simp only [List.mem_cons, List.not_mem_nil, or_false, not_or] at hc
    have hdepth : depthAfter depth c = depth := by simp [depthAfter, hc]
    have hhead : c = '/' → (cs ++ rest).head? ≠ some '*' := by
      intro he
      cases cs with
      | nil => exact hr
      | cons d cs => exact hs he
    rw [List.cons_append, readStatement_char (by simp [hc]) (hn.imp_left hd) hhead, hdepth,
      ih hd hr]
    rfl
  | @string nested quote body cs hq hb h ih =>
    intro depth rest hd hr
    have hb' : quote ≠ '\\' ∧ quote ≠ '/' := by rcases hq with rfl | rfl <;> decide
    rw [List.cons_append, List.append_assoc, List.cons_append,
      readStatement.eq_3 _ _ _ (by simp [hb'.2]), takeString_quoted hb'.1 hb, ih hd hr]
    simp [hq]
  | @group nested body cs hb h ihb ih =>
    intro depth rest hd hr
    -- within the parentheses the depth is positive, so nothing ends the statement there
    have hclose : readStatement (depth + 1) (')' :: (cs ++ rest)) =
        (')' :: (readStatement depth (cs ++ rest)).1, (readStatement depth (cs ++ rest)).2) :=
      readStatement_char (by decide) (.inl (Nat.succ_pos depth)) fun he => absurd he (by decide)
    have hopen : readStatement depth ('(' :: (body ++ ')' :: (cs ++ rest))) =
        ('(' :: (readStatement (depth + 1) (body ++ ')' :: (cs ++ rest))).1,
          (readStatement (depth + 1) (body ++ ')' :: (cs ++ rest))).2) :=
      readStatement_char (by decide) (.inr (by decide)) fun he => absurd he (by decide)
    rw [List.cons_append, List.append_assoc, List.cons_append, hopen,
      ihb (fun _ => Nat.succ_pos depth) (by simp), hclose, ih hd hr]
    simp

theorem readStatement_ending {c : Char} {ending : Ending}
    (hc : (c, ending) ∈ [(';', .semicolon), ('{', .openBrace), ('}', .closeBrace)])
    {cs : List Char} (h : Clean false cs) (rest : List Char) :
    readStatement 0 (cs ++ c :: rest) = (cs, ending, rest) := by
  simp only [List.mem_cons, Prod.mk.injEq, List.not_mem_nil, or_false] at hc
  rcases hc with ⟨rfl, rfl⟩ | ⟨rfl, rfl⟩ | ⟨rfl, rfl⟩ <;>
  · rw [readStatement_clean h nofun (by simp), readStatement.eq_3 _ _ _ (by simp)]
    simp

/-! ## Between statements -/

theorem skipTrivia_space {c : Char} (h : isSpace c = true) (cs : List Char) :
    skipTrivia (c :: cs) = skipTrivia cs := by
  have hc : c ≠ '/' := by
    rintro rfl
    exact absurd h (by decide)
  rw [skipTrivia.eq_3 _ _ (by simp [hc]), if_pos h]

section Comment

variable {text : List Char} (h : ¬ ['*', '/'] <:+: text) (cs : List Char)

theorem ne_commentEnd {c : Char} (h : ¬ ['*', '/'] <:+: c :: text) (r : List Char) :
    c :: (text ++ '*' :: '/' :: cs) ≠ '*' :: '/' :: r := by
  intro he
  obtain ⟨rfl, he'⟩ := List.cons.inj he
  cases text with
  | nil => cases he'
  | cons d text =>
    obtain ⟨rfl, -⟩ := List.cons.inj he'
    exact h ⟨[], text, rfl⟩

include h

theorem afterComment_append : afterComment (text ++ '*' :: '/' :: cs) = (cs, true) := by
  induction text with
  | nil => rfl
  | cons c text ih =>
    have hne := ne_commentEnd cs h
    rw [List.cons_append, afterComment.eq_2 _ _ fun r hc hr => hne r (by rw [hc, hr])]
    exact ih fun hi => h (hi.trans (List.suffix_cons c text).isInfix)

theorem commentText_append : commentText (text ++ '*' :: '/' :: cs) = text := by
  induction text with
  | nil => rfl
  | cons c text ih =>
    have hne := ne_commentEnd cs h
    rw [List.cons_append, commentText.eq_2 _ _ fun r hc hr => hne r (by rw [hc, hr]),
      ih fun hi => h (hi.trans (List.suffix_cons c text).isInfix)]

theorem skipTrivia_comment :
    skipTrivia ('/' :: '*' :: (text ++ '*' :: '/' :: cs)) = skipTrivia cs := by
  rw [skipTrivia, afterComment_append h]

end Comment

section Leading

variable {cs : List Char}

theorem Clean.dropWhile {nested : Bool} (h : Clean nested cs) :
    Clean nested (cs.dropWhile isSpace) := by
  induction h with
  | nil => exact .nil
  | @char nested c cs hc hn hs h ih =>
    rw [List.dropWhile_cons]
    split_ifs
    · exact ih
    · exact .char hc hn hs h
  | string hq hb h _ =>
    rw [List.dropWhile_cons_of_neg (by rcases hq with rfl | rfl <;> decide)]
    exact .string hq hb h
  | group hb h _ _ =>
    rw [List.dropWhile_cons_of_neg (by decide)]
    exact .group hb h

theorem skipTrivia_clean {nested : Bool} (h : Clean nested cs) {c : Char} (hc : isSpace c = false)
    (hs : c ≠ '/' ∧ c ≠ '*') (rest : List Char) :
    skipTrivia (cs ++ c :: rest) = cs.dropWhile isSpace ++ c :: rest := by
  have stop : ∀ {d : Char} (r : List Char), isSpace d = false → (d = '/' → r.head? ≠ some '*') →
      skipTrivia (d :: r) = d :: r := by
    intro d r hd hr
    rw [skipTrivia.eq_3 _ _ (by rintro s rfl rfl; exact hr rfl rfl), if_neg (by simp [hd])]
  induction h with
  | nil => exact stop rest hc (by simp [hs])
  | @char nested d cs hd hn hslash h ih =>
    rw [List.dropWhile_cons]
    split_ifs with hsp
    · rw [List.cons_append, skipTrivia_space hsp, ih]
    · refine stop _ (by simpa using hsp) fun he => ?_
      cases cs with
      | nil => simp [hs.2]
      | cons e cs => exact hslash he
  | string hq hb h _ =>
    rw [List.dropWhile_cons_of_neg (by rcases hq with rfl | rfl <;> decide)]
    exact stop _ (by rcases hq with rfl | rfl <;> rfl) (by rcases hq with rfl | rfl <;> simp)
  | group hb h _ _ =>
    rw [List.dropWhile_cons_of_neg (by decide)]
    exact stop _ rfl (by simp)

theorem trim_dropWhile_isSpace (cs : List Char) : trim (cs.dropWhile isSpace) = trim cs := by
  have h : (cs.dropWhile isSpace).dropWhile isBlank = cs.dropWhile isBlank := by
    induction cs with
    | nil => rfl
    | cons c cs ih =>
      by_cases hc : isSpace c = true
      · rw [List.dropWhile_cons_of_pos hc, List.dropWhile_cons_of_pos (isBlank_of_isSpace hc), ih]
      · rw [List.dropWhile_cons_of_neg hc]
  rw [trim, trim, trimStart, trimStart, h]

end Leading

/-! ## The comment behind a declaration -/

theorem trailingComment_blank {c : Char} (h : c = ' ' ∨ c = '\t') (cs : List Char) :
    (trailingComment (c :: cs)).1 = (trailingComment cs).1 := by
  have hd : (c :: cs).dropWhile (fun c => c == ' ' || c == '\t') =
      cs.dropWhile fun c => c == ' ' || c == '\t' :=
    List.dropWhile_cons_of_pos (by simpa using h)
  unfold trailingComment
  rw [hd]
  split <;> rfl

theorem trailingComment_comment {text : List Char} (h : ¬ ['*', '/'] <:+: text) (cs : List Char) :
    (trailingComment ('/' :: '*' :: (text ++ '*' :: '/' :: cs))).1 =
      some (String.ofList (trim text)) := by
  have hd : ('/' :: '*' :: (text ++ '*' :: '/' :: cs)).dropWhile
      (fun c => c == ' ' || c == '\t') = '/' :: '*' :: (text ++ '*' :: '/' :: cs) := rfl
  simp only [trailingComment, hd, commentText_append h]

theorem trailingComment_cons {c : Char} {cs : List Char} (hc : c ≠ ' ' ∧ c ≠ '\t')
    (hs : c = '/' → cs.head? ≠ some '*') : (trailingComment (c :: cs)).1 = none := by
  have hd : (c :: cs).dropWhile (fun c => c == ' ' || c == '\t') = c :: cs :=
    List.dropWhile_cons_of_neg (by simpa using hc)
  unfold trailingComment
  rw [hd]
  split
  · rename_i r he
    obtain ⟨rfl, rfl⟩ := List.cons.inj he
    exact absurd rfl (hs rfl)
  · rfl

/-- Where a scan goes on does not depend on whether it takes the comment along. -/
theorem skipTrivia_trailingComment (cs : List Char) :
    skipTrivia (trailingComment cs).2 = skipTrivia cs := by
  have hd : skipTrivia (cs.dropWhile fun c => c == ' ' || c == '\t') = skipTrivia cs := by
    induction cs with
    | nil => rfl
    | cons c cs ih =>
      rw [List.dropWhile_cons]
      split_ifs with hc
      · have hsp : isSpace c = true := by
          simp only [Bool.or_eq_true, beq_iff_eq] at hc
          rcases hc with rfl | rfl <;> rfl
        rw [ih, skipTrivia_space hsp]
      · rfl
  unfold trailingComment
  split
  · rename_i r he
    rw [← hd, he, skipTrivia]
  · rfl

/-! ## Scanning -/

namespace Scanner

theorem declarations_congr {cs cs' : List Char} (h : skipTrivia cs = skipTrivia cs')
    (preludes : List String) : (mk cs preludes).declarations = (mk cs' preludes).declarations := by
  have hs : (mk cs preludes).step = (mk cs' preludes).step := by simp only [step, h]
  rw [declarations_eq, declarations_eq, hs]

theorem declaration?_dropWhile (text : List Char) (preludes : List String) :
    declaration? preludes (text.dropWhile isSpace) = declaration? preludes text := by
  simp only [declaration?, trim_dropWhile_isSpace]

section Statement

variable {text : List Char} (h : Clean false text) (rest : List Char) (preludes : List String)

include h

/-- Up to a semicolon or a brace the scanner reads a clean text, less the blanks at its front. -/
theorem read_clean (c : Char) (ending : Ending)
    (hc : (c, ending) ∈ [(';', .semicolon), ('{', .openBrace), ('}', .closeBrace)]) :
    ∃ d r, skipTrivia (text ++ c :: rest) = d :: r ∧
      readStatement 0 (d :: r) = (text.dropWhile isSpace, ending, rest) := by
  have hstop : isSpace c = false ∧ c ≠ '/' ∧ c ≠ '*' := by
    simp only [List.mem_cons, Prod.mk.injEq, List.not_mem_nil, or_false] at hc
    rcases hc with ⟨rfl, -⟩ | ⟨rfl, -⟩ | ⟨rfl, -⟩ <;> decide
  have hs := skipTrivia_clean h hstop.1 hstop.2 rest
  obtain ⟨d, r, hdr⟩ := List.exists_cons_of_ne_nil (List.append_ne_nil_of_right_ne_nil
    (text.dropWhile isSpace) (List.cons_ne_nil c rest))
  exact ⟨d, r, hs.trans hdr, hdr ▸ readStatement_ending hc h.dropWhile rest⟩

theorem declarations_statement (hn : declaration? preludes text = none) :
    (mk (text ++ ';' :: rest) preludes).declarations = (mk rest preludes).declarations := by
  obtain ⟨d, r, hs, hr⟩ := read_clean h rest ';' .semicolon (by simp)
  simp only [declarations_eq (mk (text ++ ';' :: rest) preludes), step, hs, hr,
    declaration?_dropWhile, hn, Option.elim_some, Option.toList_none, List.nil_append]

/-- A statement that makes a declaration is found with the comment behind it. -/
theorem declarations_declaration {d : Declaration} (hd : declaration? preludes text = some d) :
    (mk (text ++ ';' :: rest) preludes).declarations =
      { d with comment := (trailingComment rest).1 } :: (mk rest preludes).declarations := by
  obtain ⟨c, r, hs, hr⟩ := read_clean h rest ';' .semicolon (by simp)
  have hrest := declarations_congr (skipTrivia_trailingComment rest) preludes
  simp only [declarations_eq (mk (text ++ ';' :: rest) preludes), step, hs, hr,
    declaration?_dropWhile, hd, Option.elim_some, Option.toList_some, hrest]
  rfl

theorem declarations_block : (mk (text ++ '{' :: rest) preludes).declarations =
    (mk rest (String.ofList (trim text) :: preludes)).declarations := by
  obtain ⟨d, r, hs, hr⟩ := read_clean h rest '{' .openBrace (by simp)
  simp only [declarations_eq (mk (text ++ '{' :: rest) preludes), step, hs, hr,
    trim_dropWhile_isSpace, Option.elim_some, Option.toList_none, List.nil_append]

end Statement

theorem declarations_close (rest : List Char) (preludes : List String) :
    (mk ('}' :: rest) preludes).declarations = (mk rest preludes.tail).declarations := by
  obtain ⟨d, r, hs, hr⟩ := read_clean .nil rest '}' .closeBrace (by simp)
  rw [List.nil_append] at hs
  rw [declarations_eq, step]
  simp only [hs, hr]
  rfl

end Scanner

end DesignVars
