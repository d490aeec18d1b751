import DesignVars.Proofs.Classification
import DesignVars.Proofs.Rendering
import DesignVars.Proofs.Scanner

/-!
# The block of a mode

The block that is written for a mode has the name of the mode between double quotes, as it is. Two
readers look at it again: a scan closes a string at the first quote that no backslash takes along,
and tokens have their escapes decoded and break off at the end of a line.

* `takeString_cases`, `length_readQuoted`: a string in the two readers;
* `ofSelector_dataMode_ne`: a prelude whose string is cut short does not name the mode;
* `Astray`, `Astray.step`: behind it no prelude is long enough to name the mode;
* **`scan_modeBlock`**: so the block is read as it was meant iff nothing in the name needs an
  escape.
-/

namespace DesignVars

open Text Css

/-! ## Strings in two readers -/

theorem takeString_cases (quote : Char) (cs : List Char) :
    (takeString quote cs).2 = [] ∨
      ∃ body rest, Quoted quote body ∧ cs = body ++ quote :: rest := by
  fun_induction takeString quote cs with
  | case1 => exact .inl rfl
  | case2 => exact .inl rfl
  | case3 c r ih =>
    refine ih.imp_right ?_
    rintro ⟨body, rest, hb, rfl⟩
    exact ⟨'\\' :: c :: body, rest, .escape hb, rfl⟩
  | case4 r => exact .inr ⟨[], r, .nil, rfl⟩
  | case5 c r hlast hescape hc ih =>
    refine ih.imp_right ?_
    rintro ⟨body, rest, hb, rfl⟩
    have hne : c ≠ '\\' := by
      rintro rfl
      obtain ⟨d, ds, hd⟩ := List.exists_cons_of_ne_nil (l := body ++ quote :: rest) (by simp)
      exact hescape d ds rfl hd
    exact ⟨c :: body, rest, .char hc hne hb, rfl⟩

theorem Quoted.of_cons {quote c : Char} {cs : List Char} (h : Quoted quote (c :: cs))
    (hc : c ≠ '\\') : Quoted quote cs := by
  cases h with
  | char _ _ h => exact h
  | escape => exact absurd rfl hc

section Quoted

variable {body : List Char} (h : Quoted '"' body) (rest : List Char)

include h

theorem dropSpace_quoted : ∃ body', Quoted '"' body' ∧ body'.length ≤ body.length ∧
    dropSpace (body ++ '"' :: rest) = body' ++ '"' :: rest := by
  cases h with
  | nil => exact ⟨[], .nil, Nat.le_refl _, rfl⟩
  | escape h => exact ⟨_, .escape h, Nat.le_refl _, rfl⟩
  | @char c cs hq hb h =>
    by_cases hr : c = '\r' ∧ ∃ cs', cs = '\n' :: cs'
    · obtain ⟨rfl, cs', rfl⟩ := hr
      exact ⟨cs', h.of_cons (by decide), Nat.le_add_right _ 2, rfl⟩
    · have hd : dropSpace (c :: (cs ++ '"' :: rest)) =
          if isSpace c then cs ++ '"' :: rest else c :: (cs ++ '"' :: rest) := by
        refine dropSpace.eq_2 c _ fun r hc he => hr ⟨hc, ?_⟩
        cases cs with
        | nil => cases he
        | cons d cs => exact ⟨cs, by rw [(List.cons.inj he).1]⟩
      rw [List.cons_append, hd]
      split_ifs
      · exact ⟨cs, h, by simp, rfl⟩
      · exact ⟨c :: cs, .char hq hb h, Nat.le_refl _, rfl⟩

theorem readHex_quoted (n acc : Nat) : ∃ body', Quoted '"' body' ∧ body'.length ≤ body.length ∧
    (readHex n acc (body ++ '"' :: rest)).2 = body' ++ '"' :: rest := by
  induction h generalizing n acc with
  | nil => exact ⟨[], .nil, Nat.le_refl _, by cases n <;> rfl⟩
  | escape h => exact ⟨_, .escape h, Nat.le_refl _, by cases n <;> rfl⟩
  | @char c cs hq hb h ih =>
    cases n with
    | zero => exact ⟨_, .char hq hb h, Nat.le_refl _, rfl⟩
    | succ n =>
      rw [List.cons_append, readHex]
      cases hexValue? c with
      | none => exact ⟨_, .char hq hb h, Nat.le_refl _, rfl⟩
      | some d =>
        obtain ⟨body', hb', hl, he⟩ := ih n (16 * acc + d)
        exact ⟨body', hb', by simp only [List.length_cons]; omega, he⟩

theorem readEscape_quoted (c : Char) : ∃ body', Quoted '"' body' ∧ body'.length ≤ body.length ∧
    (readEscape (c :: (body ++ '"' :: rest))).2 = body' ++ '"' :: rest := by
  simp only [readEscape]
  split_ifs with hc
  · obtain ⟨d, hd⟩ := Option.isSome_iff_exists.1 hc
    obtain ⟨body₁, h₁, hl₁, he₁⟩ := readHex_quoted h rest 5 (16 * 0 + d)
    obtain ⟨body₂, h₂, hl₂, he₂⟩ := dropSpace_quoted h₁ rest
    refine ⟨body₂, h₂, hl₂.trans hl₁, ?_⟩
    simp only [readHex, hd, he₁, he₂]
  · exact ⟨body, h, Nat.le_refl _, rfl⟩
  · exact ⟨body, h, Nat.le_refl _, rfl⟩

/-- A token has at most as many characters as the string that a scan closes, and fewer if there is
a backslash in it. -/
theorem length_readQuoted (hgood : (readQuoted '"' (body ++ '"' :: rest)).2.2 = true) :
    (readQuoted '"' (body ++ '"' :: rest)).1.length ≤ body.length ∧
      ((readQuoted '"' (body ++ '"' :: rest)).1.length = body.length →
        ∀ c ∈ body, c ≠ '"' ∧ c ≠ '\\' ∧ isNewline c = false) := by
  induction hn : body.length using Nat.strong_induction_on generalizing body with
  | _ n ih =>
  subst hn
  cases h with
  | nil => simp [readQuoted]
  | @char c cs hq hb h =>
    by_cases hl : isNewline c = true
    · rw [List.cons_append, readQuoted, if_neg hq, if_pos hl] at hgood
      cases hgood
    · rw [List.cons_append, readQuoted, if_neg hq, if_neg hl, if_neg hb] at hgood ⊢
      obtain ⟨hle, heq⟩ := ih cs.length (by simp) h hgood rfl
      refine ⟨by simpa using hle, fun he => List.forall_mem_cons.2 ⟨?_, heq (by simpa using he)⟩⟩
      exact ⟨hq, hb, by simpa using hl⟩
  | @escape c cs h =>
    have hne : c :: (cs ++ '"' :: rest) ≠ [] := List.cons_ne_nil _ _
    rw [List.cons_append, List.cons_append, readQuoted, if_neg (by decide), if_neg (by decide),
      if_pos rfl, if_neg hne] at hgood ⊢
    by_cases hl : startsLine (c :: (cs ++ '"' :: rest)) = true
    · rw [if_pos hl] at hgood ⊢
      have hc : c ≠ '"' ∧ c ≠ '\\' := by
        constructor <;> rintro rfl <;> cases hl
      obtain ⟨body', hb', hlen, he⟩ := dropSpace_quoted (.char hc.1 hc.2 h) rest
      rw [List.cons_append] at he
      rw [he] at hgood ⊢
      simp only [List.length_cons] at hlen ⊢
      obtain ⟨hle, -⟩ := ih body'.length (by simp only [List.length_cons]; omega) hb' hgood rfl
      exact ⟨by omega, fun he => by omega⟩
    · rw [if_neg hl] at hgood ⊢
      obtain ⟨body', hb', hlen, he⟩ := readEscape_quoted h rest c
      simp only [he] at hgood ⊢
      obtain ⟨hle, -⟩ := ih body'.length (by simp only [List.length_cons]; omega) hb' hgood rfl
      simp only [List.length_cons]
      exact ⟨by omega, fun he => by omega⟩

end Quoted

/-! ## The text of a block -/

/-- What stands behind the mode in its block, up to the text of the declarations. -/
def afterMode (tail : List Char) : List Char := ['"', ']', ' ', '{'] ++ tail

theorem length_le_of_split {mode body rest tail : List Char} (hquote : '"' ∉ tail)
    (h : mode ++ afterMode tail = body ++ '"' :: rest) :
    body.length ≤ mode.length ∧ (body.length = mode.length → body = mode) := by
  refine ⟨?_, fun he => (List.append_inj_left h he.symm).symm⟩
  have hall := congrArg List.length h
  have hrest : ([']', ' ', '{'] ++ tail).length ≤ rest.length :=
    length_le_of_suffix (by simpa using hquote) (h ▸ List.suffix_append body ('"' :: rest))
  simp only [afterMode, List.length_append, List.length_cons, List.length_nil] at hall hrest
  omega

theorem length_le_behind_brace {mode body rest tail cs : List Char} (hbrace : '{' ∉ tail)
    (h : mode ++ afterMode tail = body ++ '"' :: rest) (hcs : '{' :: cs <:+ rest) :
    tail.length ≤ cs.length := by
  have hrest : rest <:+ (mode ++ ['"', ']', ' ']) ++ '{' :: tail := by
    rw [List.append_assoc]
    exact h ▸ (List.suffix_cons '"' rest).trans (List.suffix_append body _)
  exact length_le_of_suffix hbrace (hcs.trans hrest)

theorem readStatement_dataMode (cs : List Char) :
    readStatement 0 ("[data-mode=".toList ++ '"' :: cs) =
      ("[data-mode=".toList ++ '"' :: ((takeString '"' cs).1 ++
        (readStatement 0 (takeString '"' cs).2).1), (readStatement 0 (takeString '"' cs).2).2) := by
  have hplain : Clean false "[data-mode=".toList := clean_of_plain (List.all_eq_true.1 rfl)
  rw [readStatement_clean hplain nofun (by simp), readStatement.eq_3 _ _ _ (by simp)]
  rfl

theorem trim_selector (cs : List Char) :
    trim ("[data-mode=".toList ++ cs) = "[data-mode=".toList ++ trimEnd cs := by
  have hstart : trimStart ("[data-mode=".toList ++ cs) = "[data-mode=".toList ++ cs := rfl
  rw [trim, hstart, trimEnd_append (by simp) (by decide)]

theorem trim_dataMode (body rest : List Char) :
    trim ("[data-mode=".toList ++ '"' :: (body ++ '"' :: rest)) =
      "[data-mode=".toList ++ '"' :: (body ++ '"' :: trimEnd rest) := by
  have hsplit (cs) : '"' :: (body ++ '"' :: cs) = ('"' :: (body ++ ['"'])) ++ cs := by simp
  rw [trim_selector, hsplit rest, hsplit (trimEnd rest), trimEnd_append (by simp) (by simp; decide)]

theorem declaration?_selector (cs : List Char) :
    declaration? [] ("[data-mode=".toList ++ cs) = none := by
  refine declaration?_eq_none ?_ []
  rw [trim_selector]
  rintro ⟨r, hr⟩
  cases hr

/-! ## The first prelude -/

theorem attribute_of_dataMode {cs : List Char} {name : String} {value : Token}
    (hi : [.opening .square, .ident name, .delim '=', value] <:+:
      tokens ("[data-mode=".toList ++ '"' :: cs)) :
    value = (readToken '"' cs).1 ∨
      [.opening .square, .ident name, .delim '=', value] <:+: tokens (readToken '"' cs).2 := by
  rw [tokens_dataMode] at hi
  rcases List.infix_cons_iff.1 hi with hi | hi
  · obtain ⟨-, hi⟩ := List.cons_prefix_cons.1 hi
    obtain ⟨-, hi⟩ := List.cons_prefix_cons.1 hi
    obtain ⟨-, hi⟩ := List.cons_prefix_cons.1 hi
    exact .inl (List.cons_prefix_cons.1 hi).1
  rcases List.infix_cons_iff.1 hi with hi | hi
  · cases (List.cons_prefix_cons.1 hi).1
  rcases List.infix_cons_iff.1 hi with hi | hi
  · cases (List.cons_prefix_cons.1 hi).1
  rcases List.infix_cons_iff.1 hi with hi | hi
  · have hs := (List.cons_prefix_cons.1 hi).1
    rw [readToken_quote] at hs
    split_ifs at hs
  · exact .inr hi

section Prelude

variable {mode : String} (hmode : ∃ c ∈ mode.toList, isQuotable c = false)

include hmode

theorem readToken_quoted_ne {body : List Char} (hb : Quoted '"' body) (rest : List Char)
    (hle : body.length ≤ mode.toList.length)
    (heq : body.length = mode.toList.length → body = mode.toList) (hzero : '\x00' ∉ mode.toList) :
    (readToken '"' (body ++ '"' :: rest)).1 ≠ .quoted mode := by
  intro hread
  rw [readToken_quote] at hread
  by_cases hgood : (readQuoted '"' (body ++ '"' :: rest)).2.2 = true
  · rw [if_pos hgood] at hread
    have ht : (readQuoted '"' (body ++ '"' :: rest)).1 = mode.toList := by
      rw [← Token.quoted.inj hread, String.toList_ofList]
    obtain ⟨hl, hplain⟩ := length_readQuoted hb rest hgood
    rw [ht] at hl hplain
    have hbody : body = mode.toList := heq (by omega)
    rw [hbody] at hplain
    obtain ⟨c, hc, hq⟩ := hmode
    obtain ⟨h1, h2, h3⟩ := hplain rfl c hc
    have h0 : c ≠ '\x00' := by
      rintro rfl
      exact hzero hc
    simp [isQuotable, h0, h1, h2, h3] at hq
  · rw [if_neg hgood] at hread
    cases hread

/-- A prelude that begins as the selector of a mode does not name the mode, if the string in it is
not longer than the mode and it ends soon after. -/
theorem ofSelector_dataMode_ne {body rest : List Char} (hb : Quoted '"' body)
    (hle : body.length ≤ mode.toList.length)
    (heq : body.length = mode.toList.length → body = mode.toList)
    (hlen : (body ++ '"' :: rest).length < mode.toList.length + 6) :
    Placement.ofSelector (String.ofList ("[data-mode=".toList ++ '"' :: (body ++ '"' :: rest))) ≠
      .mode mode := by
  intro h
  obtain ⟨-, name, value, hd, hv, hi⟩ := attribute_of_ofSelector h
  rw [String.toList_ofList] at hi
  rcases attribute_of_dataMode hi with hvalue | hi
  · rcases hv with rfl | rfl
    · rw [readToken_quote] at hvalue
      split_ifs at hvalue
    · exact readToken_quoted_ne hmode hb rest hle heq (zero_notMem_of_ofSelector h) hvalue.symm
  · rw [readToken_quote] at hi
    have hrest := (readQuoted_suffix '"' (body ++ '"' :: rest)).length_le
    have hl : mode.toList.length + 6 ≤ (readQuoted '"' (body ++ '"' :: rest)).2.1.length :=
      length_of_isInfix hd hv hi
    omega

/-! ## The blocks behind it -/

/-- No open block names the mode, and what stands before the next brace is too short for it. -/
structure Astray (mode : String) (s : Scanner) : Prop where
  preludes : ∀ p ∈ s.preludes, Placement.ofSelector p ≠ .mode mode
  room : ∀ before after, s.rest = before ++ '{' :: after → before.length < mode.toList.length + 6

/-- A scan that is astray stays so and finds no declaration of the mode. -/
theorem Astray.step {s s' : Scanner} {found : Option Declaration}
    (h : s.step = some (found, s')) (ha : Astray mode s) :
    Astray mode s' ∧ ∀ d ∈ found, d.placement ≠ .mode mode := by
  obtain ⟨text, ending, after, hr, hrest, hfound, hpre⟩ := Scanner.step_cases h
  have hsuffix := (readStatement_suffix 0 (skipTrivia s.rest)).trans (skipTrivia_suffix s.rest)
  have hlen := readStatement_length 0 (skipTrivia s.rest)
  have hskip := (skipTrivia_suffix s.rest).length_le
  rw [hr] at hsuffix hlen
  refine ⟨⟨?_, ?_⟩, ?_⟩
  · rcases hpre with hpre | hpre | ⟨rfl, hpre⟩
    · exact hpre ▸ ha.preludes
    · exact fun p hp => ha.preludes p (List.mem_of_mem_tail (hpre ▸ hp))
    · intro p hp
      rw [hpre] at hp
      rcases List.mem_cons.1 hp with rfl | hp
      · intro hm
        obtain ⟨before, hbefore⟩ := hsuffix
        have hroom := ha.room before after hbefore.symm
        have hmode := length_of_ofSelector hm
        have htrim := length_trim_le text
        have hall := congrArg List.length hbefore
        simp only [Ending.chars, Ending.width, List.length_append, List.length_cons,
          List.length_nil, String.toList_ofList] at hall hlen hmode
        omega
      · exact ha.preludes p hp
  · intro before after' he
    obtain ⟨front, hfront⟩ := hrest.trans hsuffix
    have hroom := ha.room (front ++ before) after' (by rw [← hfront, he, List.append_assoc])
    rw [List.length_append] at hroom
    omega
  · rintro d hd hm
    obtain ⟨e, comment, he, rfl⟩ := hfound d hd
    obtain ⟨hsel, -⟩ := places_of_declaration? he
    have hall : mode.toList.all isQuotable = false := by
      obtain ⟨c, hc, hq⟩ := hmode
      exact List.all_eq_false.2 ⟨c, hc, by rw [hq]; exact Bool.false_ne_true⟩
    rcases mode_of_placement hm with ⟨selector, hs, hm⟩ | rfl | rfl
    · have hs' : selector ∈ s.preludes.head? := hsel ▸ hs
      exact ha.preludes selector (List.mem_of_mem_head? hs') hm
    · exact absurd hall (by decide)
    · exact absurd hall (by decide)

/-! ## A block with a broken prelude -/

theorem astray_of_dataMode {tail : List Char} (hquote : '"' ∉ tail) (hbrace : '{' ∉ tail)
    {s : Scanner} {text after : List Char} {ending : Ending}
    (hr : readStatement 0 ("[data-mode=".toList ++ '"' :: (mode.toList ++ afterMode tail)) =
      (text, ending, after))
    (hrest : s.rest <:+ ending.chars ++ after)
    (hpre : s.preludes = [] ∨ ending = .openBrace ∧ s.preludes = [String.ofList (trim text)]) :
    Astray mode s := by
  rw [readStatement_dataMode] at hr
  rcases takeString_cases '"' (mode.toList ++ afterMode tail) with hend | ⟨body, rest, hb, hsplit⟩
  · -- the string takes all of the text along
    rw [hend, readStatement] at hr
    cases hr
    have hnil : s.rest = [] := List.suffix_nil.1 hrest
    refine ⟨?_, fun before after he => ?_⟩
    · rcases hpre with hpre | ⟨he, -⟩
      · simp [hpre]
      · cases he
    · rw [hnil] at he
      cases (List.append_eq_nil_iff.1 he.symm).2
  · rw [hsplit, takeString_quoted (by decide) hb] at hr
    obtain ⟨htext, hr⟩ := Prod.mk.inj hr
    obtain ⟨hle, heq⟩ := length_le_of_split hquote hsplit
    have hall := congrArg List.length hsplit
    have hlen := readStatement_length 0 rest
    have hsuffix := readStatement_suffix 0 rest
    rw [hr] at hlen hsuffix
    simp only [afterMode, List.length_append, List.length_cons, List.length_nil] at hall
    refine ⟨?_, fun before after' he => ?_⟩
    · rcases hpre with hpre | ⟨rfl, hpre⟩
      · simp [hpre]
      · intro p hp
        rw [hpre, List.mem_singleton] at hp
        rw [hp, ← htext, List.append_assoc, List.singleton_append, trim_dataMode]
        refine ofSelector_dataMode_ne hmode hb hle heq ?_
        have htrim := length_trimEnd_le (readStatement 0 rest).1
        have hafter : tail.length ≤ after.length := length_le_behind_brace hbrace hsplit hsuffix
        simp only [Ending.width, List.length_append, List.length_cons] at hlen ⊢
        omega
    · have hs := hrest.trans hsuffix
      have hafter := length_le_behind_brace hbrace hsplit
        ((List.suffix_append before _).trans (he ▸ hs))
      have hl := hs.length_le
      rw [he, List.length_append, List.length_cons] at hl
      omega

/-- **If something in a mode needs an escape, its block gives no declaration for it.** -/
theorem placement_ne_of_mem_block {tail : List Char} (hquote : '"' ∉ tail) (hbrace : '{' ∉ tail) :
    ∀ d ∈ (Scanner.mk ("[data-mode=".toList ++ '"' :: (mode.toList ++ afterMode tail))
      []).declarations, d.placement ≠ .mode mode := by
  have hskip (cs) : skipTrivia ("[data-mode=".toList ++ cs) = "[data-mode=".toList ++ cs := by
    rw [show "[data-mode=".toList ++ cs = '[' :: ("data-mode=".toList ++ cs) from rfl,
      skipTrivia.eq_3 _ _ (by simp)]
    rfl
  rw [Scanner.declarations_eq]
  cases hs : (Scanner.mk _ []).step with
  | none => exact fun d hd => absurd hd List.not_mem_nil
  | some r =>
    obtain ⟨found, s'⟩ := r
    obtain ⟨text, ending, after, hr, hrest, hfound, hpre⟩ := Scanner.step_cases hs
    rw [hskip] at hr
    have hnone : found = none := by
      rw [Option.eq_none_iff_forall_not_mem]
      intro d hd
      obtain ⟨e, -, he, -⟩ := hfound d hd
      rw [readStatement_dataMode] at hr
      rw [← (Prod.mk.inj hr).1, declaration?_selector] at he
      cases he
    have hastray : Astray mode s' :=
      astray_of_dataMode hmode hquote hbrace hr hrest (by simpa using hpre)
    rw [hnone]
    exact Scanner.forall_declarations_of_invariant (Astray.step hmode) hastray

end Prelude

/-! ## Blocks of modes -/

/-- The colors of a block as values. -/
def colorValues (colors : List (String × Rgba)) : List (String × Value) :=
  colors.map fun v => (v.1, .concrete (.color v.2))

/-- What stands behind the brace of a block. -/
def blockLines (values : List (String × Value)) : List Char :=
  '\n' :: ((String.join (values.map fun v => declarationText v.1 v.2)).toList ++ ['}', '\n'])

theorem toList_blockText (mode : String) (values : List (String × Value)) :
    (blockText (modeSelector mode) values).toList =
      "[data-mode=".toList ++ '"' :: (mode.toList ++ afterMode (blockLines values)) := by
  simp [blockText, toList_modeSelector, afterMode, blockLines]

theorem ne_of_mem_declarationText {v : String × Value} (h : Writable v) {c : Char}
    (hc : c ∈ (declarationText v.1 v.2).toList) : c ≠ '"' ∧ c ≠ '{' := by
  have hplain : ∀ d, isPlain d = true → d ≠ '"' ∧ d ≠ '{' := by
    intro d hd
    simp only [isPlain, decide_eq_true_eq, List.mem_cons, List.not_mem_nil, or_false, not_or] at hd
    exact ⟨hd.1, hd.2.2.2.1⟩
  have hfixed : ∀ d ∈ "  --: ;\n".toList, d ≠ '"' ∧ d ≠ '{' := by
    have hall : "  --: ;\n".toList.all (fun d => d != '"' && d != '{') = true := by decide
    intro d hd
    have hd := List.all_eq_true.1 hall d hd
    rwa [Bool.and_eq_true, bne_iff_ne, bne_iff_ne] at hd
  rw [show declarationText v.1 v.2 = "  --" ++ v.1 ++ ": " ++ v.2.text ++ ";\n" from rfl] at hc
  simp only [String.toList_append, List.mem_append] at hc
  rcases hc with (((hc | hc) | hc) | hc) | hc
  · exact hfixed c (List.mem_append_left [':', ' ', ';', '\n'] hc)
  · exact hplain c (isPlain_of_isNameLetter (isNameLetter_of_mem_toList h.1 c hc)).1
  · exact hfixed c (List.mem_append_right [' ', ' ', '-', '-']
      (List.mem_append_left [';', '\n'] hc))
  · exact hplain c (h.2 c hc).1
  · exact hfixed c (List.mem_append_right [' ', ' ', '-', '-', ':', ' '] hc)

theorem notMem_blockLines {values : List (String × Value)} (h : ∀ v ∈ values, Writable v) :
    '"' ∉ blockLines values ∧ '{' ∉ blockLines values := by
  have hlines : ∀ c ∈ (String.join (values.map fun v => declarationText v.1 v.2)).toList,
      c ≠ '"' ∧ c ≠ '{' := by
    induction values with
    | nil => exact nofun
    | cons v vs ih =>
      obtain ⟨hv, h⟩ := List.forall_mem_cons.1 h
      intro c hc
      rw [List.map_cons, String.join_cons, String.toList_append] at hc
      exact (List.mem_append.1 hc).elim (ne_of_mem_declarationText hv) (ih h c)
  have hall : ∀ c ∈ blockLines values, c ≠ '"' ∧ c ≠ '{' := by
    intro c hc
    rcases List.mem_cons.1 hc with rfl | hc
    · decide
    · rcases List.mem_append.1 hc with hc | hc
      · exact hlines c hc
      · rcases List.mem_pair.1 hc with rfl | rfl <;> decide
  exact ⟨fun hc => (hall _ hc).1 rfl, fun hc => (hall _ hc).2 rfl⟩

section Block

variable {colors : List (String × Rgba)} (hnames : ∀ v ∈ colors, isValidName v.1 = true)

include hnames

theorem writable_colorValues : ∀ v ∈ colorValues colors, Writable v := by
  intro v hv
  obtain ⟨u, hu, rfl⟩ := List.mem_map.1 hv
  exact ⟨hnames u hu, isPlain_text (c := .color u.2) trivial⟩

/-- **The block of a mode is read as it was meant iff nothing in the name of the mode needs an
escape**; otherwise no declaration in it counts for the mode. -/
theorem scan_modeBlock (hne : colors ≠ []) {selector mode : String}
    (h : Placement.ofSelector selector = .mode mode) :
    (scan (blockText (modeSelector mode) (colorValues colors)) =
          blockDeclarations (modeSelector mode) (colorValues colors) ∧
        (∀ d ∈ scan (blockText (modeSelector mode) (colorValues colors)),
          d.placement = .mode mode) ↔
      ∀ c ∈ mode.toList, isQuotable c = true) ∧
    ((∃ c ∈ mode.toList, isQuotable c = false) →
      ∀ d ∈ scan (blockText (modeSelector mode) (colorValues colors)),
        d.placement ≠ .mode mode) := by
  have hwritable := writable_colorValues hnames
  obtain ⟨hquote, hbrace⟩ := notMem_blockLines hwritable
  have hbad : (∃ c ∈ mode.toList, isQuotable c = false) →
      ∀ d ∈ scan (blockText (modeSelector mode) (colorValues colors)),
        d.placement ≠ .mode mode := by
    intro hmode
    rw [scan, Scanner.ofText, toList_blockText]
    exact placement_ne_of_mem_block hmode hquote hbrace
  refine ⟨⟨?_, ?_⟩, hbad⟩
  · rintro ⟨hscan, hplaced⟩
    by_contra hmode
    push Not at hmode
    obtain ⟨v, vs, hv⟩ := List.exists_cons_of_ne_nil hne
    have hmem : ∃ d, d ∈ scan (blockText (modeSelector mode) (colorValues colors)) := by
      rw [hscan, hv]
      exact ⟨_, List.mem_cons_self⟩
    obtain ⟨d, hd⟩ := hmem
    simp only [ne_eq, Bool.not_eq_true] at hmode
    exact hbad hmode d hd (hplaced d hd)
  · intro hmode
    have hb := (attribute_of_ofSelector h).1
    have hscan : scan (blockText (modeSelector mode) (colorValues colors)) =
        blockDeclarations (modeSelector mode) (colorValues colors) := by
      have hblock := Scanner.declarations_blockText hwritable (isSelector_modeSelector hmode) []
      rwa [Scanner.declarations_nil, List.append_nil, List.append_nil] at hblock
    refine ⟨hscan, fun d hd => ?_⟩
    rw [hscan] at hd
    obtain ⟨v, -, rfl⟩ := List.mem_map.1 hd
    simp [Declaration.placement, ofSelector_modeSelector hmode hb]

end Block

theorem scan_modeBlock_contrast :
    Placement.ofSelector "[data-theme='high contrast']" = .mode "high contrast" ∧
    ((scan (blockText (modeSelector "high contrast") (colorValues [("a", ⟨0, 0, 0, 1⟩)])) =
          blockDeclarations (modeSelector "high contrast") (colorValues [("a", ⟨0, 0, 0, 1⟩)]) ∧
        (∀ d ∈ scan (blockText (modeSelector "high contrast")
            (colorValues [("a", ⟨0, 0, 0, 1⟩)])), d.placement = .mode "high contrast") ↔
      ∀ c ∈ "high contrast".toList, isQuotable c = true) ∧
    ((∃ c ∈ "high contrast".toList, isQuotable c = false) →
      ∀ d ∈ scan (blockText (modeSelector "high contrast")
          (colorValues [("a", ⟨0, 0, 0, 1⟩)])), d.placement ≠ .mode "high contrast")) := by
  have h : Placement.ofSelector "[data-theme='high contrast']" = .mode "high contrast" := by
    decide +kernel
  exact ⟨h, scan_modeBlock (by decide) (by decide) h⟩

/-- A quote in the name of a mode ends the string of its own block. -/
theorem not_forall_scan_modeBlock : ¬ ∀ (selector mode : String) (colors : List (String × Rgba)),
    Placement.ofSelector selector = .mode mode → colors ≠ [] →
      (∀ v ∈ colors, isValidName v.1 = true) →
        scan (blockText (modeSelector mode) (colorValues colors)) =
            blockDeclarations (modeSelector mode) (colorValues colors) ∧
          ∀ d ∈ scan (blockText (modeSelector mode) (colorValues colors)),
            d.placement = .mode mode := by
  intro h
  have hmode : Placement.ofSelector "[data-x='a\"b']" = .mode "a\"b" := by decide +kernel
  have hscan : scan (blockText (modeSelector "a\"b") (colorValues [("a", ⟨0, 0, 0, 1⟩)])) = [] := by
    decide +kernel
  have hd := (h "[data-x='a\"b']" "a\"b" [("a", ⟨0, 0, 0, 1⟩)] hmode (by decide) (by decide)).1
  rw [hscan] at hd
  cases hd

end DesignVars
