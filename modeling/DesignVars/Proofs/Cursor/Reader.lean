import DesignVars.Proofs.Clean
import DesignVars.Proofs.Text.Bytes
import Mathlib.Tactic.Conv

/-!
# Reading by byte positions

A text can be read from byte to byte. Then single bytes are taken and the text is cut at
positions, which fails outside the text and inside a character, and a loop may stand still.

* `Turn`, `loop?`: loops that fail unless every turn moves forward and stays within a limit;
* `skipBytes?`, `atComment?`, `commentEnd?`: bytes of a kind, and comments;
* **`skipTrivia?_eq`**, **`stringEnd?_eq`**: blanks, comments and strings end where they end for
  the readers that go from character to character.
-/

namespace DesignVars

open Text Css

/-! ## Loops -/

/-- What a turn of a loop comes to. -/
inductive Turn (σ ρ : Type) where
  | again (s : σ)
  | done (r : ρ)

section Loop

variable {σ ρ : Type}

/-- The result of a loop, the state of which stands at a position. There is none if a turn has
none, or if the loop goes on without moving forward or beyond the limit. -/
def loop? (limit : Nat) (pos : σ → Nat) (turn : σ → Option (Turn σ ρ)) (s : σ) : Option ρ :=
  match turn s with
  | none => none
  | some (.done r) => some r
  | some (.again s') =>
    if pos s < pos s' ∧ pos s' ≤ limit then loop? limit pos turn s' else none
termination_by limit - pos s
decreasing_by omega

variable {limit : Nat} {pos : σ → Nat} {turn : σ → Option (Turn σ ρ)}

theorem loop?_done {s : σ} {r : ρ} (h : turn s = some (.done r)) :
    loop? limit pos turn s = some r := by
  rw [loop?, h]

theorem loop?_again {s s' : σ} (h : turn s = some (.again s')) (hp : pos s < pos s')
    (hl : pos s' ≤ limit) : loop? limit pos turn s = loop? limit pos turn s' := by
  conv_lhs => rw [loop?, h]
  exact if_pos ⟨hp, hl⟩

theorem loop?_walk {n : Nat} {s : Nat → σ} (h : ∀ k < n, turn (s k) = some (.again (s (k + 1))) ∧
    pos (s k) < pos (s (k + 1)) ∧ pos (s (k + 1)) ≤ limit) :
    loop? limit pos turn (s 0) = loop? limit pos turn (s n) := by
  induction n with
  | zero => rfl
  | succ n ih =>
    obtain ⟨ht, hp, hl⟩ := h n (Nat.lt_succ_self n)
    rw [ih fun k hk => h k (Nat.lt_succ_of_lt hk), loop?_again ht hp hl]

end Loop

/-! ## Single bytes -/

section Bytes

variable {cs r : List Char} {i : Nat} (h : from? cs i = some r)

include h

theorem byteAt?_eq_some_iff {a : Char} (ha : a.toNat < 128) :
    byteAt? cs i = some a ↔ r.head? = some a := by
  cases r with
  | nil =>
    have hi := add_byteSize_of_from? h
    have hnone : (bytes cs)[i]? = none := List.getElem?_eq_none (Nat.le_of_eq hi.symm)
    simp [byteAt?, hnone]
  | cons c r =>
    obtain ⟨b, hb, hc⟩ := byteAt?_first h
    rw [hb, List.head?_cons]
    rcases hc with rfl | hwide
    · rfl
    · refine iff_of_false (fun he => ?_) fun he => ?_
      · cases he
        omega
      · cases he
        rw [(byteAt?_ascii h ha).1] at hb
        cases hb
        omega

end Bytes

/-- The position behind all bytes that satisfy `p`. -/
def skipBytes? (p : Char → Bool) (cs : List Char) : Nat → Option Nat :=
  loop? (byteSize cs) (fun i => i) fun i =>
    if i < byteSize cs then do
      let b ← byteAt? cs i
      return if p b then .again (i + 1) else .done i
    else some (.done i)

theorem skipBytes?_eq {p : Char → Bool} (hp : ∀ b, p b = true → b.toNat < 128)
    {cs r : List Char} {i : Nat} (h : from? cs i = some r) :
    ∃ j, skipBytes? p cs i = some j ∧ from? cs j = some (r.dropWhile p) := by
  induction r generalizing i with
  | nil =>
    have hi : ¬i < byteSize cs := not_lt_byteSize h
    exact ⟨i, loop?_done (if_neg hi), h⟩
  | cons c r ih =>
    have hi : i < byteSize cs := lt_byteSize h
    by_cases hc : p c = true
    · obtain ⟨hb, hr⟩ := byteAt?_ascii h (hp c hc)
      obtain ⟨j, hj, hd⟩ := ih hr
      refine ⟨j, ?_, by rwa [List.dropWhile_cons_of_pos hc]⟩
      rw [← hj]
      exact loop?_again (by simp [hi, hb, hc]) (Nat.lt_succ_self i) hi
    · obtain ⟨b, hb, hbc⟩ := byteAt?_first h
      have hn : p b = false := by
        rcases hbc with rfl | hwide
        · simpa using hc
        · exact Bool.eq_false_iff.2 fun hpb => absurd (hp b hpb) (by omega)
      refine ⟨i, loop?_done (by simp [hi, hb, hn]), ?_⟩
      rwa [List.dropWhile_cons_of_neg hc]

/-! ## Comments -/

/-- Holds when a comment is at the front. -/
def startsComment : List Char → Bool
  | '/' :: '*' :: _ => true
  | _ => false

/-- Whether a comment is at a position, which may not be behind the end. -/
def atComment? (cs : List Char) (i : Nat) : Option Bool :=
  if i ≤ byteSize cs then
    some (decide (byteAt? cs i = some '/') && decide (byteAt? cs (i + 1) = some '*'))
  else none

/-- The number of bytes before the first `*/`. -/
def closeOffset? : List Char → Option Nat
  | '*' :: '/' :: _ => some 0
  | c :: r => (closeOffset? r).map fun k => c.utf8Size + k
  | [] => none

/-- The position behind the comment that begins at a position, or the end of the text. -/
def commentEnd? (cs : List Char) (i : Nat) : Option Nat := do
  let r ← from? cs (i + 2)
  return (closeOffset? r).elim (byteSize cs) fun k => i + 2 + k + 2

theorem startsComment_iff {r : List Char} :
    startsComment r = true ↔ ∃ t, r = '/' :: '*' :: t := by
  constructor
  · intro h
    unfold startsComment at h
    split at h
    · exact ⟨_, rfl⟩
    · cases h
  · rintro ⟨t, rfl⟩
    rfl

theorem closeOffset?_cases (cs : List Char) :
    (closeOffset? cs = some (byteSize (commentText cs)) ∧
      cs = commentText cs ++ '*' :: '/' :: (afterComment cs).1) ∨
    (closeOffset? cs = none ∧ commentText cs = cs ∧ (afterComment cs).1 = []) := by
  fun_induction closeOffset? cs with
  | case1 r => exact .inl ⟨rfl, rfl⟩
  | case2 c r hne ih =>
    rw [commentText.eq_2 _ _ hne, afterComment.eq_2 _ _ hne]
    rcases ih with ⟨ho, ht⟩ | ⟨ho, ht, ha⟩
    · refine .inl ⟨by rw [ho, byteSize_cons]; rfl, ?_⟩
      rw [List.cons_append, ← ht]
    · exact .inr ⟨by rw [ho]; rfl, by rw [ht], ha⟩
  | case3 => exact .inr ⟨rfl, rfl, rfl⟩

section Comments

variable {cs r : List Char} {i : Nat}

theorem atComment?_eq (h : from? cs i = some r) :
    atComment? cs i = some (startsComment r) := by
  have hi := add_byteSize_of_from? h
  rw [atComment?, if_pos (by omega), Option.some_inj, Bool.eq_iff_iff, startsComment_iff,
    Bool.and_eq_true, decide_eq_true_eq, decide_eq_true_eq, byteAt?_eq_some_iff h (by decide)]
  cases r with
  | nil => simp
  | cons c r =>
    rw [List.head?_cons, Option.some_inj]
    constructor
    · rintro ⟨rfl, hs⟩
      have hr := (byteAt?_ascii h (by decide)).2
      rw [byteAt?_eq_some_iff hr (by decide)] at hs
      obtain ⟨t, rfl⟩ := List.head?_eq_some_iff.1 hs
      exact ⟨t, rfl⟩
    · rintro ⟨t, ht⟩
      obtain ⟨rfl, rfl⟩ := List.cons.inj ht
      have hr := (byteAt?_ascii h (by decide)).2
      exact ⟨rfl, (byteAt?_ascii hr (by decide)).1⟩

variable (h : from? cs i = some ('/' :: '*' :: r))

include h

theorem from?_comment : from? cs (i + 2) = some r :=
  (byteAt?_ascii (byteAt?_ascii h (by decide)).2 (by decide)).2

theorem commentEnd?_cases :
    (commentEnd? cs i = some (i + 2 + byteSize (commentText r) + 2) ∧
      r = commentText r ++ '*' :: '/' :: (afterComment r).1) ∨
    (commentEnd? cs i = some (byteSize cs) ∧
      closeOffset? r = none ∧ commentText r = r ∧ (afterComment r).1 = []) := by
  rw [commentEnd?, from?_comment h]
  rcases closeOffset?_cases r with ⟨ho, ht⟩ | ⟨ho, ht⟩
  · refine .inl ⟨?_, ht⟩
    rw [Option.bind_eq_bind, Option.bind_some, ho]
    rfl
  · refine .inr ⟨?_, ho, ht⟩
    rw [Option.bind_eq_bind, Option.bind_some, ho]
    rfl

theorem commentEnd?_eq :
    ∃ j, commentEnd? cs i = some j ∧ from? cs j = some (afterComment r).1 := by
  rcases commentEnd?_cases h with ⟨he, ht⟩ | ⟨he, -, -, ha⟩
  · have hr := from?_comment h
    rw [ht] at hr
    have hclose := from?_append hr
    exact ⟨_, he, (byteAt?_ascii (byteAt?_ascii hclose (by decide)).2 (by decide)).2⟩
  · refine ⟨_, he, ?_⟩
    rw [ha]
    exact from?_eq_some_iff.2 ⟨cs, (List.append_nil cs).symm, rfl⟩

end Comments

/-! ## Blanks and comments -/

/-- The position behind the white space and the comments at a position. -/
def skipTrivia? (cs : List Char) : Nat → Option Nat :=
  loop? (byteSize cs) (fun i => i) fun i => do
    let j ← skipBytes? isSpace cs i
    let comment ← atComment? cs j
    if comment then
      let k ← commentEnd? cs j
      return .again k
    else
      return .done j

theorem skipTrivia_dropWhile (cs : List Char) :
    skipTrivia (cs.dropWhile isSpace) = skipTrivia cs := by
  induction cs with
  | nil => rfl
  | cons c cs ih =>
    by_cases hc : isSpace c = true
    · rw [List.dropWhile_cons_of_pos hc, ih, skipTrivia_space hc]
    · rw [List.dropWhile_cons_of_neg hc]

theorem skipTrivia_eq_self {cs : List Char} (hs : ∀ c ∈ cs.head?, isSpace c = false)
    (hc : startsComment cs = false) : skipTrivia cs = cs := by
  cases cs with
  | nil => rw [skipTrivia]
  | cons c cs =>
    have hne : ∀ t, c = '/' → cs = '*' :: t → False := by
      rintro t rfl rfl
      cases hc
    rw [skipTrivia.eq_3 _ _ hne, hs c rfl]
    rfl

theorem toNat_lt_of_isSpace {c : Char} (h : isSpace c = true) : c.toNat < 128 := by
  simp only [isSpace, Bool.or_eq_true, beq_iff_eq] at h
  rcases h with (((rfl | rfl) | rfl) | rfl) | rfl <;> decide

theorem skipTrivia?_eq {cs r : List Char} {i : Nat} (h : from? cs i = some r) :
    ∃ j, skipTrivia? cs i = some j ∧ from? cs j = some (skipTrivia r) := by
  induction hn : r.length using Nat.strong_induction_on generalizing r i with
  | _ n ih =>
    subst hn
    obtain ⟨j, hj, hd⟩ := skipBytes?_eq (fun _ => toNat_lt_of_isSpace) h
    have hcomment := atComment?_eq hd
    rw [← skipTrivia_dropWhile]
    by_cases hc : startsComment (r.dropWhile isSpace) = true
    · obtain ⟨t, ht⟩ := startsComment_iff.1 hc
      rw [ht] at hd
      obtain ⟨k, hk, ha⟩ := commentEnd?_eq hd
      have hs : (afterComment t).1 <:+ '/' :: '*' :: t :=
        (afterComment_suffix t).trans (List.suffix_append ['/', '*'] t)
      have hr := List.dropWhile_suffix (l := r) isSpace
      have hlen : (afterComment t).1.length < r.length := by
        have ht' := (afterComment_suffix t).length_le
        have hr' := hr.length_le
        rw [ht, List.length_cons, List.length_cons] at hr'
        omega
      obtain ⟨l, hl, hlast⟩ := ih _ hlen ha rfl
      have hik := add_length_le_of_from? h ha (hs.trans (ht ▸ hr))
      have hk' := add_byteSize_of_from? ha
      refine ⟨l, ?_, by rwa [ht, skipTrivia]⟩
      rw [← hl]
      exact loop?_again (by simp [hj, hcomment, hc, hk]) (by omega) (by omega)
    · refine ⟨j, loop?_done (by simp [hj, hcomment, hc]), ?_⟩
      rw [skipTrivia_eq_self ?_ (Bool.eq_false_iff.2 hc)]
      · exact hd
      · intro c hc
        have hh := List.head?_dropWhile_not isSpace r
        rw [Option.mem_def.1 hc] at hh
        simpa using hh

/-! ## Strings -/

/-- The position behind the string of which the rest is at a position, or the end of the text. A
backslash takes a byte along, which need not be a character. -/
def stringEnd? (cs : List Char) (quote : Char) : Nat → Option Nat :=
  loop? (byteSize cs + 1) (fun i => i) fun i =>
    if i < byteSize cs then do
      let b ← byteAt? cs i
      return if b = '\\' then .again (i + 2)
        else if b = quote then .done (i + 1) else .again (i + 1)
    else some (.done (byteSize cs))

section Strings

variable {cs r : List Char} {quote : Char} (hq : quote.toNat < 128) {c : Char} {i : Nat}

include hq

/-- Bytes that are not of ASCII are passed by one by one. -/
theorem stringEnd?_wide {n : Nat} (hn : i + n ≤ byteSize cs)
    (h : ∀ k < n, ∃ b, byteAt? cs (i + k) = some b ∧ 128 ≤ b.toNat) :
    stringEnd? cs quote i = stringEnd? cs quote (i + n) := by
  refine loop?_walk (s := fun k => i + k) fun k hk => ⟨?_, by omega, by omega⟩
  obtain ⟨b, hb, hwide⟩ := h k hk
  have hback : b ≠ '\\' := by
    rintro rfl
    exact absurd hwide (by decide)
  have hquote : b ≠ quote := by
    rintro rfl
    omega
  simp [show i + k < byteSize cs by omega, hb, hback, hquote, Nat.add_assoc]

theorem stringEnd?_char (hback : c ≠ '\\') (hc : c ≠ quote) (h : from? cs i = some (c :: r)) :
    stringEnd? cs quote i = stringEnd? cs quote (i + c.utf8Size) := by
  have hi := lt_byteSize h
  rcases byteAt?_cases h with ⟨-, hone, hb⟩ | ⟨-, hb⟩
  · rw [hone]
    exact loop?_again (by simp [hi, hb, hback, hc]) (Nat.lt_succ_self i) (by omega)
  · have hend := add_byteSize_of_from? (from?_next h)
    exact stringEnd?_wide hq (by omega) hb

/-- A backslash takes along the first byte of the character behind it, and the others are passed
by. -/
theorem stringEnd?_escape (h : from? cs i = some ('\\' :: c :: r)) :
    stringEnd? cs quote i = stringEnd? cs quote (i + 1 + c.utf8Size) := by
  have hi := lt_byteSize h
  obtain ⟨hb, hr⟩ := byteAt?_ascii h (by decide)
  have hc := c.utf8Size_pos
  have hend := add_byteSize_of_from? (from?_next hr)
  have hstep : stringEnd? cs quote i = stringEnd? cs quote (i + 2) :=
    loop?_again (by simp [hb, hi]) (by omega) (by omega)
  have hbytes : ∀ k < c.utf8Size - 1, ∃ b, byteAt? cs (i + 2 + k) = some b ∧ 128 ≤ b.toNat := by
    intro k hk
    rcases byteAt?_cases hr with ⟨-, hone, -⟩ | ⟨-, hwide⟩
    · omega
    · have hk' := hwide (k + 1) (by omega)
      rwa [show i + 1 + (k + 1) = i + 2 + k by omega] at hk'
  rw [hstep, stringEnd?_wide hq (by omega) hbytes,
    show i + 2 + (c.utf8Size - 1) = i + 1 + c.utf8Size by omega]

/-- **The end of a string is found as among characters.** -/
theorem stringEnd?_eq (h : from? cs i = some r) :
    stringEnd? cs quote i = some (i + byteSize (takeString quote r).1) := by
  -- Before the last two cases, the pattern has excluded a backslash.
  have hne {c : Char} {r : List Char} (hlast : c = '\\' → r = [] → False)
      (hback : ∀ d t, c = '\\' → r = d :: t → False) : c ≠ '\\' := by
    intro hc
    cases r with
    | nil => exact hlast hc rfl
    | cons d t => exact hback d t hc rfl
  fun_induction takeString quote r generalizing i with
  | case1 =>
    have hi := add_byteSize_of_from? h
    rw [hi]
    exact loop?_done (if_neg (not_lt_byteSize h))
  | case2 =>
    -- The backslash leads behind the end.
    have hi := add_byteSize_of_from? h
    have hb := (byteAt?_ascii h (by decide)).1
    have hsize : byteSize ['\\'] = 1 := rfl
    have hstep : stringEnd? cs quote i = stringEnd? cs quote (i + 2) :=
      loop?_again (by simp [hb, show i < byteSize cs by omega]) (by omega) (by omega)
    rw [hstep, hi]
    exact loop?_done (if_neg (by omega))
  | case3 c r ih =>
    have hr := from?_next (byteAt?_ascii h (by decide)).2
    have hone : '\\'.utf8Size = 1 := rfl
    rw [stringEnd?_escape hq h, ih hr, byteSize_cons, byteSize_cons, hone, Nat.add_assoc,
      Nat.add_assoc]
  | case4 r hlast hback =>
    have hi := lt_byteSize h
    have hb := (byteAt?_ascii h hq).1
    rw [byteSize_cons, utf8Size_eq_one hq]
    exact loop?_done (by simp [hi, hb, hne hlast hback])
  | case5 c r hlast hback hc ih =>
    rw [stringEnd?_char hq (hne hlast hback) hc h, ih (from?_next h), byteSize_cons,
      Nat.add_assoc]

end Strings

end DesignVars
