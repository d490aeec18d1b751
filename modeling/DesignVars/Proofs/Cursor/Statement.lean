import DesignVars.Proofs.Cursor.Reader
import DesignVars.Proofs.Scanner

/-!
# Statements by byte positions

A reader by positions copies a statement piece by piece, from behind one comment to the next.

* `Statement`: what has been read of a statement, and what has been copied of that;
* **`readStatement?_eq`**: it reads the statement that `readStatement` reads;
* `trailingComment?_eq`: and then finds the same comment behind it.
-/

namespace DesignVars

open Text Css

/-! ## Statements -/

/-- A statement that is being read: where the reader stands, where the bytes begin that are not
copied yet, what has been copied, and how many parentheses are open. -/
structure Statement where
  pos : Nat
  start : Nat
  text : List Char
  depth : Nat

def endingOf (b : Char) : Ending :=
  if b = ';' then .semicolon else if b = '{' then .openBrace else .closeBrace

/-- Whether the byte `b` at a position begins a comment. Only a slash has the next byte read. -/
def beginsComment? (cs : List Char) (i : Nat) (b : Char) : Option Bool :=
  if b = '/' then atComment? cs i else some false

def Statement.turn? (cs : List Char) (s : Statement) :
    Option (Turn Statement (List Char × Ending × Nat)) :=
  if s.pos < byteSize cs then do
    let b ← byteAt? cs s.pos
    let comment ← beginsComment? cs s.pos b
    if comment then
      let chunk ← slice? cs s.start s.pos
      let j ← commentEnd? cs s.pos
      return .again ⟨j, j, s.text ++ chunk ++ [' '], s.depth⟩
    else if b = '"' ∨ b = '\'' then
      let j ← stringEnd? cs b (s.pos + 1)
      return .again { s with pos := j }
    else if s.depth = 0 ∧ (b = ';' ∨ b = '{' ∨ b = '}') then
      let chunk ← slice? cs s.start s.pos
      return .done (s.text ++ chunk, endingOf b, s.pos)
    else
      return .again { s with pos := s.pos + 1, depth := depthAfter s.depth b }
  else do
    let chunk ← from? cs s.start
    return .done (s.text ++ chunk, .endOfText, s.pos)

/-- The text of the statement, what ends it, and where its ending is. -/
def Statement.run? (cs : List Char) (s : Statement) : Option (List Char × Ending × Nat) :=
  loop? (byteSize cs) Statement.pos (Statement.turn? cs) s

def readStatement? (cs : List Char) (i : Nat) : Option (List Char × Ending × Nat) :=
  Statement.run? cs ⟨i, i, [], 0⟩

section Statements

variable {cs : List Char}

theorem slice?_of_from? {m r : List Char} {start : Nat} (h : from? cs start = some (m ++ r)) :
    slice? cs start (start + byteSize m) = some m := by
  obtain ⟨before, rfl, rfl⟩ := from?_eq_some_iff.1 h
  exact slice?_eq_some_iff.2 ⟨before, r, rfl, rfl, rfl⟩

namespace Statement

theorem run?_wide {text : List Char} {i n start depth : Nat} (hn : i + n ≤ byteSize cs)
    (h : ∀ k < n, ∃ b, byteAt? cs (i + k) = some b ∧ 128 ≤ b.toNat) :
    run? cs ⟨i, start, text, depth⟩ = run? cs ⟨i + n, start, text, depth⟩ := by
  rw [run?, run?]
  refine loop?_walk (s := fun k => Statement.mk (i + k) start text depth)
    fun k hk => ⟨?_, Nat.lt_succ_self (i + k), show i + k + 1 ≤ byteSize cs by omega⟩
  obtain ⟨b, hb, hwide⟩ := h k hk
  have hne (a : Char) (ha : a.toNat < 128) : b ≠ a := by
    rintro rfl
    omega
  have hi : i + k < byteSize cs := by omega
  simp [turn?, hi, hb, beginsComment?, depthAfter, hne, Nat.add_assoc]

theorem run?_char {c : Char} {r m text : List Char} {start depth : Nat}
    (h : from? cs start = some (m ++ c :: r)) (hquote : c ≠ '"' ∧ c ≠ '\'')
    (hcomment : startsComment (c :: r) = false)
    (hend : ¬(depth = 0 ∧ (c = ';' ∨ c = '{' ∨ c = '}'))) :
    run? cs ⟨start + byteSize m, start, text, depth⟩ =
      run? cs ⟨start + byteSize (m ++ [c]), start, text, depthAfter depth c⟩ := by
  have hr := from?_append h
  have hi := lt_byteSize hr
  have hnext := add_byteSize_of_from? (from?_next hr)
  rw [byteSize_append, byteSize_cons, byteSize_nil, Nat.add_zero, ← Nat.add_assoc]
  rcases byteAt?_cases hr with ⟨-, hone, hb⟩ | ⟨hwide, hb⟩
  · have hc : beginsComment? cs (start + byteSize m) c = some false := by
      rw [beginsComment?, atComment?_eq hr, hcomment, ite_self]
    rw [hone]
    refine loop?_again ?_ (Nat.lt_succ_self _) hi
    simp [turn?, hi, hb, hc, hquote, hend]
  · have hdepth : depthAfter depth c = depth := by
      have hne (a : Char) (ha : a.toNat < 128) : c ≠ a := by
        rintro rfl
        omega
      simp [depthAfter, hne]
    rw [hdepth]
    exact run?_wide (by omega) hb

/-- At a comment, what stands before it is copied, with a blank for the comment. -/
theorem run?_comment {r m text : List Char} {start depth : Nat}
    (h : from? cs start = some (m ++ '/' :: '*' :: r)) :
    ∃ k, from? cs k = some (afterComment r).1 ∧
      run? cs ⟨start + byteSize m, start, text, depth⟩ =
        run? cs ⟨k, k, text ++ m ++ [' '], depth⟩ := by
  have hr := from?_append h
  have hi := lt_byteSize hr
  have hb := (byteAt?_ascii hr (by decide)).1
  have hc : beginsComment? cs (start + byteSize m) '/' = some true := atComment?_eq hr
  obtain ⟨k, hk, ha⟩ := commentEnd?_eq hr
  have hpos := add_length_le_of_from? hr ha
    ((afterComment_suffix r).trans (List.suffix_append ['/', '*'] r))
  have hlen := (afterComment_suffix r).length_le
  have hend := add_byteSize_of_from? ha
  rw [List.length_cons, List.length_cons] at hpos
  refine ⟨k, ha, ?_⟩
  refine loop?_again ?_ (show start + byteSize m < k by omega) (show k ≤ byteSize cs by omega)
  simp [turn?, hi, hb, hc, hk, slice?_of_from? h]

theorem run?_string {c : Char} {r m text : List Char} {start depth : Nat}
    (h : from? cs start = some (m ++ c :: r)) (hq : c = '"' ∨ c = '\'') :
    run? cs ⟨start + byteSize m, start, text, depth⟩ =
      run? cs ⟨start + byteSize (m ++ c :: (takeString c r).1), start, text, depth⟩ := by
  have hr := from?_append h
  have hi := lt_byteSize hr
  have hascii : c.toNat < 128 := by rcases hq with rfl | rfl <;> decide
  have hc : beginsComment? cs (start + byteSize m) c = some false :=
    if_neg (by rcases hq with rfl | rfl <;> decide)
  obtain ⟨hb, hbody⟩ := byteAt?_ascii hr hascii
  have hj := stringEnd?_eq hascii hbody
  have hsize : start + byteSize (m ++ c :: (takeString c r).1) =
      start + byteSize m + 1 + byteSize (takeString c r).1 := by
    rw [byteSize_append, byteSize_cons, utf8Size_eq_one hascii]
    omega
  have hbound : start + byteSize m + 1 + byteSize (takeString c r).1 ≤ byteSize cs := by
    have hend := add_byteSize_of_from? hbody
    rw [← takeString_append c r, byteSize_append] at hend
    omega
  rw [hsize]
  refine loop?_again ?_ (Nat.lt_of_lt_of_le (Nat.lt_succ_self _) (Nat.le_add_right _ _)) hbound
  simp [turn?, hi, hb, hc, hq, hj]

theorem run?_ending {c : Char} {r m text : List Char} {start : Nat}
    (h : from? cs start = some (m ++ c :: r)) (hc : c = ';' ∨ c = '{' ∨ c = '}') :
    ∃ j, run? cs ⟨start + byteSize m, start, text, 0⟩ = some (text ++ m ++ [], endingOf c, j) ∧
      from? cs j = some ((endingOf c).chars ++ r) := by
  have hr := from?_append h
  have hi := lt_byteSize hr
  have hchars : c :: r = (endingOf c).chars ++ r := by rcases hc with rfl | rfl | rfl <;> rfl
  refine ⟨start + byteSize m, loop?_done ?_, hchars ▸ hr⟩
  have hb := (byteAt?_ascii hr (by rcases hc with rfl | rfl | rfl <;> decide)).1
  have hslash : beginsComment? cs (start + byteSize m) c = some false :=
    if_neg (by rcases hc with rfl | rfl | rfl <;> decide)
  have hquote : ¬(c = '"' ∨ c = '\'') := by rcases hc with rfl | rfl | rfl <;> decide
  simp [turn?, hi, hb, hslash, hquote, hc, slice?_of_from? h]

/-- **A statement is read as among characters**, from any place in it on. -/
theorem run?_eq (depth : Nat) (r : List Char) (start : Nat) (m text : List Char)
    (h : from? cs start = some (m ++ r)) :
    ∃ j, run? cs ⟨start + byteSize m, start, text, depth⟩ =
        some (text ++ m ++ (readStatement depth r).1, (readStatement depth r).2.1, j) ∧
      from? cs j = some ((readStatement depth r).2.1.chars ++ (readStatement depth r).2.2) := by
  fun_induction readStatement depth r generalizing start m text with
  | case1 depth =>
    have hr := from?_append h
    refine ⟨start + byteSize m, loop?_done ?_, hr⟩
    simp [turn?, not_lt_byteSize hr, h]
  | case2 depth r ih =>
    obtain ⟨k, hk, hstep⟩ := run?_comment h
    obtain ⟨j, hj, hlast⟩ := ih k [] (text ++ m ++ [' ']) hk
    refine ⟨j, ?_, hlast⟩
    rw [hstep]
    simpa using hj
  | case3 depth c r hc hq ih =>
    have hm : from? cs start = some (m ++ c :: (takeString c r).1 ++ (takeString c r).2) := by
      rw [h, List.append_assoc, List.cons_append, takeString_append]
    obtain ⟨j, hj, hlast⟩ := ih start _ text hm
    refine ⟨j, ?_, hlast⟩
    rw [run?_string h (by simpa using hq), hj]
    simp
  | case4 depth c r hc hq he =>
    obtain ⟨rfl, rfl⟩ : depth = 0 ∧ c = ';' := by simpa using he
    exact run?_ending h (.inl rfl)
  | case5 depth c r hc hq hs he =>
    obtain ⟨rfl, rfl⟩ : depth = 0 ∧ c = '{' := by simpa using he
    exact run?_ending h (.inr (.inl rfl))
  | case6 depth c r hc hq hs ho he =>
    obtain ⟨rfl, rfl⟩ : depth = 0 ∧ c = '}' := by simpa using he
    exact run?_ending h (.inr (.inr rfl))
  | case7 depth c r hc hq hs ho he ih =>
    have hcomment : startsComment (c :: r) = false := by
      refine Bool.eq_false_iff.2 fun hs => ?_
      obtain ⟨t, ht⟩ := startsComment_iff.1 hs
      obtain ⟨rfl, rfl⟩ := List.cons.inj ht
      exact hc _ rfl rfl
    have hend : ¬(depth = 0 ∧ (c = ';' ∨ c = '{' ∨ c = '}')) := by
      rintro ⟨rfl, rfl | rfl | rfl⟩
      · exact hs rfl
      · exact ho rfl
      · exact he rfl
    obtain ⟨j, hj, hlast⟩ := ih start (m ++ [c]) text (by rwa [List.append_assoc])
    refine ⟨j, ?_, hlast⟩
    rw [run?_char h (by simpa using hq) hcomment hend, hj]
    simp

end Statement

theorem readStatement?_eq {r : List Char} {i : Nat} (h : from? cs i = some r) :
    ∃ j, readStatement? cs i = some ((readStatement 0 r).1, (readStatement 0 r).2.1, j) ∧
      from? cs j = some ((readStatement 0 r).2.1.chars ++ (readStatement 0 r).2.2) :=
  Statement.run?_eq 0 r i [] [] h

end Statements

/-! ## The comment behind a declaration -/

/-- The comment that begins on the same line, and the position behind it. The last two characters
close it and do not belong to it, unless it is not closed, as `/*/` is not. -/
def trailingComment? (cs : List Char) (i : Nat) : Option (Option String × Nat) := do
  let j ← skipBytes? (fun b => b == ' ' || b == '\t') cs i
  let comment ← atComment? cs j
  if comment then
    let k ← commentEnd? cs j
    let front ← slice? cs 0 k
    let body ← slice? cs (j + 2) (if ['*', '/'] <:+ front ∧ j + 4 ≤ k then k - 2 else k)
    return (some (String.ofList (trim body)), k)
  else
    return (none, i)

theorem closeOffset?_append_ne (t r : List Char) : closeOffset? (t ++ '*' :: '/' :: r) ≠ none := by
  induction t with
  | nil => nofun
  | cons c t ih =>
    rw [List.cons_append]
    unfold closeOffset?
    split
    · nofun
    · rename_i he
      obtain ⟨-, rfl⟩ := List.cons.inj he
      exact fun h => ih (Option.map_eq_none_iff.1 h)
    · rename_i he
      cases he

/-- A text that ends with an open comment of two bytes or more does not end with `*/`. -/
theorem not_suffix_of_closeOffset? {before t : List Char} (h : closeOffset? t = none)
    (ht : 2 ≤ byteSize t) : ¬['*', '/'] <:+ before ++ '/' :: '*' :: t := by
  intro hs
  have hsuffix : t <:+ before ++ '/' :: '*' :: t :=
    (List.suffix_append ['/', '*'] t).trans (List.suffix_append before _)
  match t, ht with
  | [c], ht =>
    have hc : ['*', c] <:+ before ++ ['/', '*', c] := ⟨before ++ ['/'], by simp⟩
    have he := (List.suffix_of_suffix_length_le hs hc (Nat.le_refl 2)).eq_of_length rfl
    cases he
    exact absurd ht (by decide)
  | c :: d :: t, _ =>
    obtain ⟨front, he⟩ := List.suffix_of_suffix_length_le hs hsuffix (by simp)
    rw [← he] at h
    exact closeOffset?_append_ne front [] h

section TrailingComment

variable {cs r : List Char} {i : Nat}

theorem commentText_slice {t : List Char} {j : Nat} (h : from? cs j = some ('/' :: '*' :: t)) :
    ∃ k front, commentEnd? cs j = some k ∧ from? cs k = some (afterComment t).1 ∧
      slice? cs 0 k = some front ∧
      slice? cs (j + 2) (if ['*', '/'] <:+ front ∧ j + 4 ≤ k then k - 2 else k) =
        some (commentText t) := by
  have hbody := from?_comment h
  obtain ⟨k, hk, hlast⟩ := commentEnd?_eq h
  obtain ⟨before, rfl, rfl⟩ := from?_eq_some_iff.1 h
  rcases commentEnd?_cases h with ⟨he, ht⟩ | ⟨he, ho, ht, -⟩
  · obtain rfl : k = _ := Option.some.inj (hk.symm.trans he)
    refine ⟨_, before ++ '/' :: '*' :: (commentText t ++ ['*', '/']), hk, hlast, ?_, ?_⟩
    · refine slice?_eq_some_iff.2 ⟨[], (afterComment t).1, ?_, rfl, ?_⟩
      · conv_lhs => rw [ht]
        simp
      · have hmarks : byteSize ['/', '*'] = 2 ∧ byteSize ['*', '/'] = 2 := ⟨rfl, rfl⟩
        rw [show '/' :: '*' :: (commentText t ++ ['*', '/']) =
          ['/', '*'] ++ (commentText t ++ ['*', '/']) from rfl]
        simp only [byteSize_append, hmarks]
        omega
    · have hs : ['*', '/'] <:+ before ++ '/' :: '*' :: (commentText t ++ ['*', '/']) :=
        ⟨before ++ '/' :: '*' :: commentText t, by simp⟩
      rw [if_pos ⟨hs, by omega⟩, Nat.add_sub_cancel]
      exact slice?_of_from? (hbody.trans (congrArg some ht))
  · obtain rfl : k = _ := Option.some.inj (hk.symm.trans he)
    have hsize := add_byteSize_of_from? hbody
    refine ⟨_, before ++ '/' :: '*' :: t, hk, hlast, ?_, ?_⟩
    · exact slice?_eq_some_iff.2 ⟨[], [], by simp, rfl, Nat.zero_add _⟩
    · rw [if_neg, ht, ← hsize]
      · exact slice?_of_from? (r := []) (by rwa [List.append_nil])
      · rintro ⟨hs, hlen⟩
        exact not_suffix_of_closeOffset? ho (by omega) hs

theorem trailingComment?_eq (h : from? cs i = some r) :
    ∃ j, trailingComment? cs i = some ((trailingComment r).1, j) ∧
      from? cs j = some (trailingComment r).2 := by
  have hp : ∀ b : Char, (b == ' ' || b == '\t') = true → b.toNat < 128 := by
    intro b hb
    rw [Bool.or_eq_true, beq_iff_eq, beq_iff_eq] at hb
    rcases hb with rfl | rfl <;> decide
  obtain ⟨j, hj, hd⟩ := skipBytes?_eq hp h
  have hc := atComment?_eq hd
  by_cases hs : startsComment (r.dropWhile fun b => b == ' ' || b == '\t') = true
  · obtain ⟨t, ht⟩ := startsComment_iff.1 hs
    have hr : trailingComment r =
        (some (String.ofList (trim (commentText t))), (afterComment t).1) := by
      simp only [trailingComment, ht]
    rw [ht] at hd
    obtain ⟨k, front, hk, hlast, hfront, hbody⟩ := commentText_slice hd
    rw [hr]
    refine ⟨k, ?_, hlast⟩
    simp only [trailingComment?, hj, hc, hs, hk, hfront, Option.bind_eq_bind, Option.bind_some,
      if_true, hbody]
    rfl
  · have hr : trailingComment r = (none, r) := by
      unfold trailingComment
      split
      · rename_i t ht
        exact absurd (startsComment_iff.2 ⟨t, ht⟩) hs
      · rfl
    rw [hr]
    exact ⟨i, by simp [trailingComment?, hj, hc, hs], h⟩

end TrailingComment

end DesignVars
