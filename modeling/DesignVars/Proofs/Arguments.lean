import DesignVars.Classification
import DesignVars.Proofs.Declaration
import DesignVars.Proofs.List
import DesignVars.Proofs.Text.Bytes

/-!
# The arguments of `light-dark()`

* `Balanced`, `CommaAt`: texts in which parentheses match, and their commas outside parentheses;
* `IsArgument`: what stands between two such commas, from a given depth on;
* `splitArguments?_eq_pair_iff`: a text is split in two exactly at its only such comma;
* `LightDarkText`: what is written for two arguments;
* `lightDarkSlices?`: the same by byte positions, where the text may be cut at boundaries of
  characters only;
* **`lightDark?_exact`**: the arguments are read exactly from what is written for them, they are
  balanced, and the text is never cut inside a character.
-/

namespace DesignVars

open Text

/-! ## Parentheses and commas -/

/-- No parenthesis is closed before it is opened, and all are closed. -/
structure Balanced (cs : List Char) : Prop where
  count_le : ∀ p, p <+: cs → p.count ')' ≤ p.count '('
  count_eq : cs.count ')' = cs.count '('

/-- The text has a comma outside all parentheses, behind `p` and before `q`. -/
def CommaAt (cs p q : List Char) : Prop := cs = p ++ ',' :: q ∧ p.count ')' = p.count '('

/-- Behind `depth` open parentheses, the text closes all that are open, never more, and has no
comma outside all of them. -/
structure IsArgument (depth : Nat) (cs : List Char) : Prop where
  count_le : ∀ p, p <+: cs → p.count ')' ≤ depth + p.count '('
  count_eq : cs.count ')' = depth + cs.count '('
  no_comma : ∀ p q, cs = p ++ ',' :: q → p.count ')' ≠ depth + p.count '('

theorem isArgument_zero_iff {cs : List Char} :
    IsArgument 0 cs ↔ Balanced cs ∧ ∀ p q, ¬ CommaAt cs p q := by
  constructor
  · rintro ⟨hle, heq, hcomma⟩
    simp only [Nat.zero_add] at hle heq hcomma
    exact ⟨⟨hle, heq⟩, fun p q h => hcomma p q h.1 h.2⟩
  · rintro ⟨⟨hle, heq⟩, hcomma⟩
    refine ⟨?_, ?_, ?_⟩ <;> simp only [Nat.zero_add]
    · exact hle
    · exact heq
    · exact fun p q he h => hcomma p q ⟨he, h⟩

theorem isArgument_nil_iff {depth : Nat} : IsArgument depth [] ↔ depth = 0 := by
  constructor
  · intro h
    exact (Nat.add_eq_zero_iff.1 h.count_eq.symm).1
  · rintro rfl
    refine isArgument_zero_iff.2 ⟨⟨fun p hp => ?_, rfl⟩, fun p q h => ?_⟩
    · rw [List.prefix_nil.1 hp]
      exact Nat.le_refl 0
    · exact List.append_ne_nil_of_right_ne_nil p (List.cons_ne_nil _ q) h.1.symm

/-- What one more character adds to the parentheses that are closed and opened. -/
theorem count_cons_add {depth : Nat} {c : Char} (h : c = ')' → depth ≠ 0) (p : List Char) :
    (c :: p).count ')' + (depthAfter depth c + p.count '(') =
      depth + (c :: p).count '(' + p.count ')' := by
  unfold depthAfter
  by_cases ho : c = '('
  · subst ho
    rw [if_pos rfl, List.count_cons_self, List.count_cons_of_ne (by decide)]
    omega
  · rw [if_neg ho, List.count_cons_of_ne ho]
    by_cases hc : c = ')'
    · have := h hc
      subst hc
      rw [if_pos rfl, List.count_cons_self]
      omega
    · rw [if_neg hc, List.count_cons_of_ne hc]
      omega

theorem isArgument_cons_iff {depth : Nat} {c : Char} {cs : List Char} :
    IsArgument depth (c :: cs) ↔
      (c = ',' → depth ≠ 0) ∧ (c = ')' → depth ≠ 0) ∧ IsArgument (depthAfter depth c) cs := by
  constructor
  · intro h
    have hcomma : c = ',' → depth ≠ 0 := by
      rintro rfl rfl
      exact h.no_comma [] cs rfl rfl
    have hclose : c = ')' → depth ≠ 0 := by
      rintro rfl rfl
      exact absurd (h.count_le [')'] ⟨cs, rfl⟩) (by decide)
    refine ⟨hcomma, hclose, ⟨fun p hp => ?_, ?_, fun p q he => ?_⟩⟩
    · have hle := h.count_le (c :: p) (List.cons_prefix_cons.2 ⟨rfl, hp⟩)
      have := count_cons_add hclose p
      omega
    · have heq := h.count_eq
      have := count_cons_add hclose cs
      omega
    · have hne := h.no_comma (c :: p) q (congrArg (c :: ·) he)
      have := count_cons_add hclose p
      omega
  · rintro ⟨hcomma, hclose, h⟩
    refine ⟨fun p hp => ?_, ?_, fun p q he => ?_⟩
    · cases p with
      | nil => exact Nat.zero_le _
      | cons d p =>
        obtain ⟨rfl, hp'⟩ := List.cons_prefix_cons.1 hp
        have hle := h.count_le p hp'
        have := count_cons_add hclose p
        omega
    · have heq := h.count_eq
      have := count_cons_add hclose cs
      omega
    · cases p with
      | nil =>
        obtain ⟨rfl, -⟩ := List.cons.inj he
        exact fun h0 => hcomma rfl h0.symm
      | cons d p =>
        obtain ⟨rfl, he'⟩ := List.cons.inj he
        have hne := h.no_comma p q he'
        have := count_cons_add hclose p
        omega

/-! ## Splitting -/

theorem splitArguments?_comma (cs : List Char) :
    splitArguments? 0 (',' :: cs) = (splitArguments? 0 cs).map ([] :: ·) := rfl

/-- The first part with one more character in front. -/
def consFirst (c : Char) : List (List Char) → List (List Char)
  | part :: parts => (c :: part) :: parts
  | [] => [[c]]

theorem splitArguments?_cons {depth : Nat} {c : Char} (hcomma : c = ',' → depth ≠ 0)
    (hclose : c = ')' → depth ≠ 0) (cs : List Char) :
    splitArguments? depth (c :: cs) =
      (splitArguments? (depthAfter depth c) cs).map (consFirst c) := by
  have hcomma : (decide (c = ',') && decide (depth = 0)) = false := by simpa using hcomma
  have hclose : (decide (c = ')') && decide (depth = 0)) = false := by simpa using hclose
  rw [splitArguments?, hcomma, hclose]
  rfl

theorem splitArguments?_of_isArgument {depth : Nat} {a : List Char} (h : IsArgument depth a) :
    splitArguments? depth a = some [a] := by
  induction a generalizing depth with
  | nil =>
    rw [isArgument_nil_iff.1 h]
    rfl
  | cons c a ih =>
    obtain ⟨hcomma, hclose, h⟩ := isArgument_cons_iff.1 h
    rw [splitArguments?_cons hcomma hclose, ih h]
    rfl

theorem splitArguments?_append {depth : Nat} {a : List Char} (h : IsArgument depth a)
    (cs : List Char) :
    splitArguments? depth (a ++ ',' :: cs) = (splitArguments? 0 cs).map (a :: ·) := by
  induction a generalizing depth with
  | nil =>
    rw [isArgument_nil_iff.1 h]
    rfl
  | cons c a ih =>
    obtain ⟨hcomma, hclose, h⟩ := isArgument_cons_iff.1 h
    rw [List.cons_append, splitArguments?_cons hcomma hclose, ih h, Option.map_map]
    rfl

/-- The first part goes up to the first comma outside all parentheses, or to the end. -/
theorem exists_of_splitArguments? {depth : Nat} {cs : List Char} {parts : List (List Char)}
    (h : splitArguments? depth cs = some parts) : ∃ a rest, parts = a :: rest ∧
      IsArgument depth a ∧
      (rest = [] ∧ cs = a ∨ ∃ cs', cs = a ++ ',' :: cs' ∧ splitArguments? 0 cs' = some rest) := by
  induction cs generalizing depth parts with
  | nil =>
    obtain ⟨h0, ⟨⟩⟩ := Option.ite_none_right_eq_some.1 h
    exact ⟨[], [], rfl, isArgument_nil_iff.2 h0, .inl ⟨rfl, rfl⟩⟩
  | cons c cs ih =>
    by_cases hcomma : c = ',' → depth ≠ 0
    · by_cases hclose : c = ')' → depth ≠ 0
      · rw [splitArguments?_cons hcomma hclose] at h
        obtain ⟨parts', hp, rfl⟩ := Option.map_eq_some_iff.1 h
        obtain ⟨a, rest, rfl, ha, hrest⟩ := ih hp
        refine ⟨c :: a, rest, rfl, isArgument_cons_iff.2 ⟨hcomma, hclose, ha⟩, ?_⟩
        rcases hrest with ⟨rfl, rfl⟩ | ⟨cs', rfl, hr⟩
        · exact .inl ⟨rfl, rfl⟩
        · exact .inr ⟨cs', rfl, hr⟩
      · obtain ⟨rfl, rfl⟩ : c = ')' ∧ depth = 0 := by simpa using hclose
        cases h
    · obtain ⟨rfl, rfl⟩ : c = ',' ∧ depth = 0 := by simpa using hcomma
      obtain ⟨rest, hr, rfl⟩ := Option.map_eq_some_iff.1 h
      exact ⟨[], rest, rfl, isArgument_nil_iff.2 rfl, .inr ⟨cs, rfl, hr⟩⟩

theorem splitArguments?_eq_pair_iff {cs p q : List Char} : splitArguments? 0 cs = some [p, q] ↔
    cs = p ++ ',' :: q ∧ IsArgument 0 p ∧ IsArgument 0 q := by
  constructor
  · intro h
    obtain ⟨a, rest, hparts, ha, hrest⟩ := exists_of_splitArguments? h
    obtain ⟨rfl, rfl⟩ := List.cons.inj hparts
    rcases hrest with ⟨hnil, -⟩ | ⟨cs', rfl, hr⟩
    · cases hnil
    · obtain ⟨b, rest, hparts, hb, hrest⟩ := exists_of_splitArguments? hr
      obtain ⟨rfl, rfl⟩ := List.cons.inj hparts
      rcases hrest with ⟨-, rfl⟩ | ⟨cs'', -, hr⟩
      · exact ⟨rfl, ha, hb⟩
      · obtain ⟨_, _, hparts, -⟩ := exists_of_splitArguments? hr
        cases hparts
  · rintro ⟨rfl, hp, hq⟩
    rw [splitArguments?_append hp, splitArguments?_of_isArgument hq]
    rfl

section Parts

variable {p q : List Char}

theorem count_append_comma (r : List Char) :
    (p ++ ',' :: r).count ')' = p.count ')' + r.count ')' ∧
      (p ++ ',' :: r).count '(' = p.count '(' + r.count '(' := by
  simp [List.count_append]

theorem Balanced.append_comma (hp : Balanced p) (hq : Balanced q) : Balanced (p ++ ',' :: q) := by
  have hpe := hp.count_eq
  refine ⟨fun r hr => ?_, ?_⟩
  · rcases prefix_of_prefix_append hr with hr | ⟨t, rfl, ht⟩
    · exact hp.count_le r hr
    · obtain ⟨hc, ho⟩ := count_append_comma (p := p) t
      have := hq.count_le t ht
      omega
  · obtain ⟨hc, ho⟩ := count_append_comma (p := p) q
    have := hq.count_eq
    omega

/-- **A balanced text is split at its only comma outside all parentheses.** -/
theorem isArgument_and_iff : IsArgument 0 p ∧ IsArgument 0 q ↔ Balanced (p ++ ',' :: q) ∧
    CommaAt (p ++ ',' :: q) p q ∧ ∀ p' q', CommaAt (p ++ ',' :: q) p' q' → p' = p := by
  simp only [isArgument_zero_iff]
  constructor
  · rintro ⟨⟨hp, hpc⟩, hq, hqc⟩
    refine ⟨hp.append_comma hq, ⟨rfl, hp.count_eq⟩, ?_⟩
    rintro p' q' ⟨he, hlevel⟩
    rcases List.append_eq_append_iff.1 he with ⟨t, rfl, ht⟩ | ⟨t, rfl, ht⟩
    · cases t with
      | nil => exact List.append_nil p
      | cons c t =>
        obtain ⟨rfl, rfl⟩ := List.cons.inj ht
        obtain ⟨hc, ho⟩ := count_append_comma (p := p) t
        have := hp.count_eq
        exact absurd ⟨rfl, by omega⟩ (hqc t q')
    · cases t with
      | nil => exact (List.append_nil p').symm
      | cons c t =>
        obtain ⟨rfl, -⟩ := List.cons.inj ht
        exact absurd ⟨rfl, hlevel⟩ (hpc p' t)
  · rintro ⟨h, ⟨-, hlevel⟩, honly⟩
    have hq (r : List Char) (hr : r <+: q) :
        (p ++ ',' :: r).count ')' ≤ (p ++ ',' :: r).count '(' :=
      h.count_le _ ((List.prefix_append_right_inj p).2 (List.cons_prefix_cons.2 ⟨rfl, hr⟩))
    refine ⟨⟨⟨fun r hr => h.count_le r (hr.trans (List.prefix_append p _)), hlevel⟩, ?_⟩,
      ⟨⟨fun r hr => ?_, ?_⟩, ?_⟩⟩
    · rintro p₁ p₂ ⟨rfl, hl⟩
      have he := honly p₁ (p₂ ++ ',' :: q) ⟨by rw [List.append_assoc]; rfl, hl⟩
      exact absurd (congrArg List.length he) (by simp)
    · obtain ⟨hc, ho⟩ := count_append_comma (p := p) r
      have := hq r hr
      omega
    · obtain ⟨hc, ho⟩ := count_append_comma (p := p) q
      have := h.count_eq
      omega
    · rintro q₁ q₂ ⟨rfl, hl⟩
      obtain ⟨hc, ho⟩ := count_append_comma (p := p) q₁
      have he := honly (p ++ ',' :: q₁) q₂ ⟨by rw [List.append_assoc]; rfl, by omega⟩
      exact absurd (congrArg List.length he) (by simp)

end Parts

/-! ## Outer blanks -/

theorem isArgument_append_blanks {depth : Nat} {cs blanks : List Char}
    (hb : ∀ c ∈ blanks, isBlank c = true) (h : IsArgument depth (cs ++ blanks)) :
    IsArgument depth cs := by
  have hnot {c : Char} (hc : isBlank c = false) : blanks.count c = 0 :=
    List.count_eq_zero.2 fun hm => by rw [hb c hm] at hc; cases hc
  refine ⟨fun p hp => h.count_le p (hp.trans (List.prefix_append cs blanks)), ?_,
    fun p q he => ?_⟩
  · have := h.count_eq
    rwa [List.count_append, List.count_append, hnot (by decide), hnot (by decide)] at this
  · exact h.no_comma p (q ++ blanks) (by rw [he, List.append_assoc]; rfl)

theorem isArgument_blanks_append {depth : Nat} {cs blanks : List Char}
    (hb : ∀ c ∈ blanks, isBlank c = true) (h : IsArgument depth (blanks ++ cs)) :
    IsArgument depth cs := by
  induction blanks with
  | nil => exact h
  | cons c blanks ih =>
    obtain ⟨hc, hb⟩ := List.forall_mem_cons.1 hb
    have hd : depthAfter depth c = depth := by
      unfold depthAfter
      rw [if_neg (by rintro rfl; cases hc), if_neg (by rintro rfl; cases hc)]
    have h := (isArgument_cons_iff.1 h).2.2
    rw [hd] at h
    exact ih hb h

theorem IsArgument.trim {depth : Nat} {cs : List Char} (h : IsArgument depth cs) :
    IsArgument depth (trim cs) := by
  obtain ⟨before, after, he, hb, ha⟩ := exists_blanks_trim cs
  rw [he, List.append_assoc] at h
  exact isArgument_append_blanks ha (isArgument_blanks_append hb h)

/-! ## What is written for two arguments -/

/-- The text is `light-dark(` in any case, a balanced text with one comma outside all parentheses,
and a closing parenthesis. The parts around the comma are not blank, and are `light` and `dark`
without their outer blanks. -/
def LightDarkText (text light dark : String) : Prop :=
  ∃ head body p q : List Char, text.toList = head ++ (body ++ [')']) ∧
    lower head = "light-dark(".toList ∧ Balanced body ∧ CommaAt body p q ∧
    (∀ p' q', CommaAt body p' q' → p' = p) ∧ isAllBlank p = false ∧ isAllBlank q = false ∧
    light = String.ofList (trim p) ∧ dark = String.ofList (trim q)

theorem length_of_lower {head : List Char} (h : lower head = lightDarkHead) :
    head.length = lightDarkHead.length := by
  rw [← h, lower, List.length_map]

theorem lightDarkBody?_eq_some_iff {cs body : List Char} : lightDarkBody? cs = some body ↔
    ∃ head, cs = head ++ (body ++ [')']) ∧ lower head = lightDarkHead := by
  rw [lightDarkBody?, List.splitAt_eq]
  constructor
  · intro h
    obtain ⟨hc, h⟩ := Option.ite_none_right_eq_some.1 h
    obtain ⟨hhead, hlast⟩ := Bool.and_eq_true_iff.1 hc
    refine ⟨cs.take lightDarkHead.length, ?_, of_decide_eq_true hhead⟩
    rw [← Option.some_inj.1 h, List.dropLast_append_getLast? _ (of_decide_eq_true hlast),
      List.take_append_drop]
  · rintro ⟨head, rfl, hhead⟩
    rw [← length_of_lower hhead, List.take_left, List.drop_left]
    simp [hhead]

theorem isAllBlank_eq_false_iff {cs : List Char} :
    isAllBlank cs = false ↔ (trim cs).isEmpty = false := by
  rw [← Bool.not_eq_true, isAllBlank_iff_trim, List.isEmpty_eq_false_iff]

theorem lightDark?_eq_some_iff {text light dark : String} :
    lightDark? text = some (light, dark) ↔ LightDarkText text light dark := by
  have hpair : lightDark? text = some (light, dark) ↔ ∃ body p q,
      lightDarkBody? text.toList = some body ∧ splitArguments? 0 body = some [p, q] ∧
      isAllBlank p = false ∧ isAllBlank q = false ∧ light = String.ofList (trim p) ∧
      dark = String.ofList (trim q) := by
    rw [lightDark?]
    constructor
    · intro h
      split at h
      · rename_i p q hb
        obtain ⟨body, hbody, hsplit⟩ := Option.bind_eq_some_iff.1 hb
        simp only [Option.ite_none_left_eq_some, Bool.or_eq_true, not_or, Bool.not_eq_true,
          ← isAllBlank_eq_false_iff] at h
        obtain ⟨⟨hp, hq⟩, h⟩ := h
        obtain ⟨rfl, rfl⟩ := Prod.mk.inj (Option.some.inj h)
        exact ⟨body, p, q, hbody, hsplit, hp, hq, rfl, rfl⟩
      · cases h
    · rintro ⟨body, p, q, hbody, hsplit, hp, hq, rfl, rfl⟩
      rw [hbody, Option.bind_some, hsplit]
      simp [isAllBlank_eq_false_iff.1 hp, isAllBlank_eq_false_iff.1 hq]
  rw [hpair]
  constructor
  · rintro ⟨body, p, q, hbody, hsplit, hp, hq, hlight, hdark⟩
    obtain ⟨head, he, hhead⟩ := lightDarkBody?_eq_some_iff.1 hbody
    obtain ⟨rfl, hargs⟩ := splitArguments?_eq_pair_iff.1 hsplit
    obtain ⟨hb, hcomma, honly⟩ := isArgument_and_iff.1 hargs
    exact ⟨head, _, p, q, he, hhead, hb, hcomma, honly, hp, hq, hlight, hdark⟩
  · rintro ⟨head, body, p, q, he, hhead, hb, hcomma, honly, hp, hq, hlight, hdark⟩
    obtain rfl := hcomma.1
    exact ⟨_, p, q, lightDarkBody?_eq_some_iff.2 ⟨head, he, hhead⟩,
      splitArguments?_eq_pair_iff.2 ⟨rfl, isArgument_and_iff.2 ⟨hb, hcomma, honly⟩⟩, hp, hq,
      hlight, hdark⟩

theorem balanced_of_lightDarkText {text light dark : String} (h : LightDarkText text light dark) :
    (Balanced light.toList ∧ ∀ p q, ¬ CommaAt light.toList p q) ∧
      Balanced dark.toList ∧ ∀ p q, ¬ CommaAt dark.toList p q := by
  obtain ⟨head, body, p, q, -, -, hb, hcomma, honly, -, -, rfl, rfl⟩ := h
  obtain rfl := hcomma.1
  obtain ⟨hp, hq⟩ := isArgument_and_iff.2 ⟨hb, hcomma, honly⟩
  rw [String.toList_ofList, String.toList_ofList]
  exact ⟨isArgument_zero_iff.1 hp.trim, isArgument_zero_iff.1 hq.trim⟩

/-! ## Reading by byte positions -/

/-- The position of the only comma outside all parentheses, if the parentheses match. The text
stands at a position, behind open parentheses and, maybe, behind such a comma. -/
def commaPosition? (depth : Nat) (found : Option Nat) (i : Nat) : List Char → Option Nat
  | [] => if depth = 0 then found else none
  | c :: cs =>
    if c = '(' then commaPosition? (depth + 1) found (i + c.utf8Size) cs
    else if c = ')' then
      if depth = 0 then none else commaPosition? (depth - 1) found (i + c.utf8Size) cs
    else if c = ',' && depth = 0 then
      if found.isSome then none else commaPosition? depth (some i) (i + c.utf8Size) cs
    else commaPosition? depth found (i + c.utf8Size) cs

/-- The arguments, read by cutting the text at byte positions; none at all if a cut is inside a
character or behind the end. Only the cut that takes the first eleven bytes may fail. -/
def lightDarkSlices? (cs : List Char) : Option (Option (String × String)) :=
  match slice? cs 0 11 with
  | none => some none
  | some head =>
    if lower head = lightDarkHead && cs.getLast? = some ')' then
      (slice? cs 11 (byteSize cs - 1)).bind fun body =>
        match commaPosition? 0 none 0 body with
        | none => some none
        | some i =>
          (slice? body 0 i).bind fun light => (slice? body (i + 1) (byteSize body)).map fun dark =>
            if (trim light).isEmpty || (trim dark).isEmpty then none
            else some (String.ofList (trim light), String.ofList (trim dark))
    else some none

/-- The position of the comma, given the parts of a text at position `i`. -/
def onlyComma? (found : Option Nat) (i : Nat) : List (List Char) → Option Nat
  | [_] => found
  | [p, _] => if found.isSome then none else some (i + byteSize p)
  | _ => none

theorem onlyComma?_consFirst (found : Option Nat) (i : Nat) (c : Char) (a : List Char)
    (rest : List (List Char)) : onlyComma? found i (consFirst c (a :: rest)) =
      onlyComma? found (i + c.utf8Size) (a :: rest) := by
  rcases rest with _ | ⟨b, _ | ⟨_, _⟩⟩
  · rfl
  · simp only [consFirst, onlyComma?, byteSize_cons, Nat.add_assoc]
  · rfl

theorem onlyComma?_nil_cons (found : Option Nat) (i j : Nat) (b : List Char)
    (rest : List (List Char)) : onlyComma? found i ([] :: b :: rest) =
      if found.isSome then none else onlyComma? (some i) j (b :: rest) := by
  cases rest with
  | nil => rfl
  | cons c rest =>
    cases found <;> cases rest <;> rfl

theorem commaPosition?_eq (depth : Nat) (found : Option Nat) (i : Nat) (cs : List Char) :
    commaPosition? depth found i cs = (splitArguments? depth cs).bind (onlyComma? found i) := by
  induction cs generalizing depth found i with
  | nil =>
    rw [commaPosition?, splitArguments?]
    split_ifs <;> rfl
  | cons c cs ih =>
    by_cases hcomma : c = ',' → depth ≠ 0
    · by_cases hclose : c = ')' → depth ≠ 0
      · have hgo : commaPosition? depth found i (c :: cs) =
            commaPosition? (depthAfter depth c) found (i + c.utf8Size) cs := by
          rw [commaPosition?, depthAfter]
          split_ifs <;> simp_all
        rw [hgo, ih, splitArguments?_cons hcomma hclose]
        cases hs : splitArguments? (depthAfter depth c) cs with
        | none => rfl
        | some parts =>
          obtain ⟨a, rest, rfl, -⟩ := exists_of_splitArguments? hs
          exact (onlyComma?_consFirst found i c a rest).symm
      · obtain ⟨rfl, rfl⟩ : c = ')' ∧ depth = 0 := by simpa using hclose
        rfl
    · obtain ⟨rfl, rfl⟩ : c = ',' ∧ depth = 0 := by simpa using hcomma
      have hgo : commaPosition? 0 found i (',' :: cs) =
          if found.isSome then none else commaPosition? 0 (some i) (i + ','.utf8Size) cs := rfl
      rw [hgo, ih, splitArguments?_comma]
      cases hs : splitArguments? 0 cs with
      | none =>
        cases found <;> rfl
      | some parts =>
        obtain ⟨b, rest, rfl, -⟩ := exists_of_splitArguments? hs
        exact (onlyComma?_nil_cons found i _ b rest).symm

theorem utf8Size_toLower (c : Char) : c.toLower.utf8Size = c.utf8Size := by
  unfold Char.toLower
  split_ifs with h
  · have hA : 65 ≤ c.val.toNat := UInt32.le_iff_toNat_le.1 h.1
    have hZ : c.val.toNat ≤ 90 := UInt32.le_iff_toNat_le.1 h.2
    have hc : c.utf8Size = 1 := by
      rw [Char.utf8Size_eq_one_iff, UInt32.le_iff_toNat_le]
      exact hZ.trans (by decide)
    rw [hc, Char.utf8Size_eq_one_iff, UInt32.le_iff_toNat_le, UInt32.toNat_add]
    exact (Nat.mod_le _ _).trans ((Nat.add_le_add_right hZ 32).trans (by decide))
  · rfl

theorem byteSize_lower (cs : List Char) : byteSize (lower cs) = byteSize cs := by
  induction cs with
  | nil => rfl
  | cons c cs ih =>
    rw [byteSize_cons, ← utf8Size_toLower c, ← ih, ← byteSize_cons]
    rfl

theorem byteSize_head {head : List Char} (h : lower head = lightDarkHead) : byteSize head = 11 := by
  rw [← byteSize_lower, h]
  decide

theorem slices_body (body : List Char) :
    (match commaPosition? 0 none 0 body with
      | none => some none
      | some i =>
        (slice? body 0 i).bind fun light => (slice? body (i + 1) (byteSize body)).map fun dark =>
          if (trim light).isEmpty || (trim dark).isEmpty then none
          else some (String.ofList (trim light), String.ofList (trim dark))) =
      some (match splitArguments? 0 body with
        | some [light, dark] =>
          if (trim light).isEmpty || (trim dark).isEmpty then none
          else some (String.ofList (trim light), String.ofList (trim dark))
        | _ => none) := by
  rw [commaPosition?_eq]
  rcases hs : splitArguments? 0 body with _ | _ | ⟨p, _ | ⟨q, _ | ⟨r, rest⟩⟩⟩
  · rfl
  · rfl
  · rfl
  · obtain ⟨rfl, -, -⟩ := splitArguments?_eq_pair_iff.1 hs
    have hlight : slice? (p ++ ',' :: q) 0 (0 + byteSize p) = some p :=
      slice?_eq_some_iff.2 ⟨[], ',' :: q, rfl, rfl, rfl⟩
    have hdark : slice? (p ++ ',' :: q) (0 + byteSize p + 1) (byteSize (p ++ ',' :: q)) =
        some q := by
      refine slice?_eq_some_iff.2 ⟨p ++ [','], [], by simp, ?_, ?_⟩
      · rw [byteSize_append, Nat.zero_add]
        rfl
      · rw [byteSize_append, byteSize_cons, Nat.zero_add, Nat.add_assoc]
        rfl
    simp only [Option.bind_some, onlyComma?, Option.isSome_none, Bool.false_eq_true, if_false,
      hlight, hdark, Option.map_some]
  · rfl

/-- **Every cut is at the boundary of characters**, and the arguments are those of the text. -/
theorem lightDarkSlices?_eq (text : String) :
    lightDarkSlices? text.toList = some (lightDark? text) := by
  unfold lightDarkSlices? lightDark?
  cases hb : lightDarkBody? text.toList with
  | some body =>
    obtain ⟨head, he, hhead⟩ := lightDarkBody?_eq_some_iff.1 hb
    have hfront : slice? text.toList 0 11 = some head :=
      slice?_eq_some_iff.2 ⟨[], body ++ [')'], he, rfl, by rw [Nat.zero_add, byteSize_head hhead]⟩
    have hbody : slice? text.toList 11 (byteSize text.toList - 1) = some body := by
      refine slice?_eq_some_iff.2 ⟨head, [')'], he, byteSize_head hhead, ?_⟩
      rw [he, byteSize_append, byteSize_append, byteSize_head hhead]
      rfl
    have hlast : text.toList.getLast? = some ')' := by
      rw [he, ← List.append_assoc]
      exact List.getLast?_concat
    rw [hfront]
    simp only [hhead, hlast, hbody, decide_true, Bool.and_self, if_true, Option.bind_some]
    exact slices_body body
  | none =>
    cases hfront : slice? text.toList 0 11 with
    | none => rfl
    | some head =>
      refine if_neg fun hc => ?_
      obtain ⟨hhead, hlast⟩ := Bool.and_eq_true_iff.1 hc
      obtain ⟨before, after, he, hsize, -⟩ := slice?_eq_some_iff.1 hfront
      have hbefore : before = [] := by
        have := length_le_byteSize before
        exact List.eq_nil_of_length_eq_zero (by omega)
      rw [hbefore, List.nil_append] at he
      have hlast : ')' ∈ after.getLast? := by
        rw [he, List.getLast?_append] at hlast
        cases ha : after.getLast? with
        | some c => simpa [ha] using hlast
        | none =>
          have hopen := congrArg List.getLast? (of_decide_eq_true hhead)
          rw [ha, Option.none_or] at hlast
          rw [lower, List.getLast?_map, of_decide_eq_true hlast] at hopen
          cases hopen
      rw [← List.dropLast_append_getLast? _ hlast] at he
      rw [lightDarkBody?_eq_some_iff.2 ⟨head, he, of_decide_eq_true hhead⟩] at hb
      cases hb

/-- **The arguments are read exactly from what is written for them**; they are balanced themselves,
and reading them by byte positions never cuts the text inside a character. -/
theorem lightDark?_exact (text : String) :
    (∀ light dark, lightDark? text = some (light, dark) ↔ LightDarkText text light dark) ∧
    (∀ light dark, lightDark? text = some (light, dark) →
      (Balanced light.toList ∧ ∀ p q, ¬ CommaAt light.toList p q) ∧
        Balanced dark.toList ∧ ∀ p q, ¬ CommaAt dark.toList p q) ∧
    lightDarkSlices? text.toList = some (lightDark? text) :=
  ⟨fun _ _ => lightDark?_eq_some_iff,
    fun _ _ h => balanced_of_lightDarkText (lightDark?_eq_some_iff.1 h), lightDarkSlices?_eq text⟩

theorem lightDark?_exact_nested :
    lightDark? "Light-Dark( rgb(1, (2), 3),\tvar(--é))" = some ("rgb(1, (2), 3)", "var(--é)") ∧
    (Balanced "rgb(1, (2), 3)".toList ∧ ∀ p q, ¬ CommaAt "rgb(1, (2), 3)".toList p q) ∧
    (Balanced "var(--é)".toList ∧ ∀ p q, ¬ CommaAt "var(--é)".toList p q) := by
  have h : lightDark? "Light-Dark( rgb(1, (2), 3),\tvar(--é))" =
      some ("rgb(1, (2), 3)", "var(--é)") := by decide +kernel
  exact ⟨h, (lightDark?_exact _).2.1 _ _ h⟩

end DesignVars
