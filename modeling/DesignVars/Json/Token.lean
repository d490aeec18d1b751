import DesignVars.Json.Basic

/-!
# JSON tokens

* `Json.Token`: a mark, a literal, a number or a string;
* `readString?`: a string with its escapes;
* **`Json.tokens?`**: the tokens of a text.
-/

namespace DesignVars.Json

open Text

inductive Token where
  | openBracket
  | closeBracket
  | openBrace
  | closeBrace
  | colon
  | comma
  /-- A value that is one token. -/
  | scalar (v : Json)

/-! ## Strings -/

/-- The number of four hexadecimal digits at the front. -/
def takeUnit? : List Char → Option (Nat × List Char)
  | a :: b :: c :: d :: rest => do
    some (4096 * (← hexValue? a) + 256 * (← hexValue? b) + 16 * (← hexValue? c) + (← hexValue? d),
      rest)
  | _ => none

/-- The first half of a surrogate pair. -/
def isLead (n : Nat) : Bool := 0xD800 ≤ n && n < 0xDC00

/-- The second half of a surrogate pair. -/
def isTrail (n : Nat) : Bool := 0xDC00 ≤ n && n < 0xE000

/-- The character of a surrogate pair. -/
def charOfPair (lead trail : Nat) : Char :=
  Char.ofNat (0x10000 + (lead - 0xD800) * 0x400 + (trail - 0xDC00))

/-- The character that a short escape stands for. -/
def shortEscape? : Char → Option Char
  | '"' => some '"'
  | '\\' => some '\\'
  | '/' => some '/'
  | 'b' => some '\x08'
  | 'f' => some '\x0c'
  | 'n' => some '\n'
  | 'r' => some '\r'
  | 't' => some '\t'
  | _ => none

/-- The character of the escape at the front, after its backslash, and what follows it. Half of a
surrogate pair is an escape without a character. -/
def takeEscape? : List Char → Option (Option Char × List Char)
  | 'u' :: rest => do
    let (n, rest) ← takeUnit? rest
    if isLead n then
      match rest with
      | '\\' :: 'u' :: rest' =>
        let (m, rest') ← takeUnit? rest'
        if isTrail m then some (some (charOfPair n m), rest') else some (none, rest)
      | _ => some (none, rest)
    else if isTrail n then some (none, rest)
    else some (some (Char.ofNat n), rest)
  | c :: rest => (shortEscape? c).map fun d => (some d, rest)
  | [] => none

theorem takeUnit?_length_lt {cs rest : List Char} {n : Nat} (h : takeUnit? cs = some (n, rest)) :
    rest.length < cs.length := by
  unfold takeUnit? at h
  split at h
  · simp only [Option.bind_eq_bind, Option.bind_eq_some_iff, Option.some.injEq,
      Prod.mk.injEq] at h
    obtain ⟨_, _, _, _, _, _, _, _, _, rfl⟩ := h
    simp only [List.length_cons]
    omega
  · cases h

theorem takeEscape?_length_lt {cs rest : List Char} {c : Option Char}
    (h : takeEscape? cs = some (c, rest)) : rest.length < cs.length := by
  unfold takeEscape? at h
  split at h
  · simp only [Option.bind_eq_bind, Option.bind_eq_some_iff] at h
    obtain ⟨⟨n, r⟩, hn, h⟩ := h
    have h1 := takeUnit?_length_lt hn
    simp only at h
    split at h
    · split at h
      · simp only [Option.bind_eq_some_iff] at h
        obtain ⟨⟨m, r'⟩, hm, h⟩ := h
        have h2 := takeUnit?_length_lt hm
        simp only [List.length_cons] at h1 ⊢
        split at h <;> simp only [Option.some.injEq, Prod.mk.injEq] at h <;>
          obtain ⟨_, rfl⟩ := h <;> simp <;> omega
      · simp only [Option.some.injEq, Prod.mk.injEq] at h
        obtain ⟨_, rfl⟩ := h
        exact Nat.lt_succ_of_lt h1
    · split at h <;> simp only [Option.some.injEq, Prod.mk.injEq] at h <;>
        obtain ⟨_, rfl⟩ := h <;> exact Nat.lt_succ_of_lt h1
  · simp only [Option.map_eq_some_iff, Prod.mk.injEq] at h
    obtain ⟨_, _, _, rfl⟩ := h
    simp
  · cases h

/-- A character in front of a text that may not exist. -/
def consChar (c : Option Char) (cs : Option (List Char)) : Option (List Char) :=
  match c, cs with
  | some c, some cs => some (c :: cs)
  | _, _ => none

/-- The rest of a string, and what follows its closing quote. A string holds no control characters
and has to be closed. -/
def readString? (cs : List Char) : Option (Option (List Char) × List Char) :=
  match cs with
  | [] => none
  | '"' :: rest => some (some [], rest)
  | '\\' :: rest =>
    match _escape : takeEscape? rest with
    | none => none
    | some (c, rest') => (readString? rest').map fun s => (consChar c s.1, s.2)
  | c :: rest =>
    if c.toNat < 0x20 then none
    else (readString? rest).map fun s => (consChar (some c) s.1, s.2)
termination_by cs.length
decreasing_by
  · have := takeEscape?_length_lt _escape
    simp only [List.length_cons]
    omega
  · simp

theorem readString?_length_le {cs rest : List Char} {s : Option (List Char)}
    (h : readString? cs = some (s, rest)) : rest.length ≤ cs.length := by
  fun_induction readString? cs generalizing s with
  | case1 => cases h
  | case2 r => cases h; simp
  | case3 => cases h
  | case4 r c r' hr ih =>
    obtain ⟨⟨t, q⟩, ht, h⟩ := Option.map_eq_some_iff.1 h
    have h1 := takeEscape?_length_lt hr
    simp only [Prod.mk.injEq] at h
    obtain ⟨_, rfl⟩ := h
    have h2 := ih ht
    simp only [List.length_cons]
    omega
  | case5 => cases h
  | case6 c r _ _ _ ih =>
    obtain ⟨⟨t, q⟩, ht, h⟩ := Option.map_eq_some_iff.1 h
    simp only [Prod.mk.injEq] at h
    obtain ⟨_, rfl⟩ := h
    have h2 := ih ht
    simp only [List.length_cons]
    omega

/-! ## Tokens -/

/-- Space, tab, line feed and carriage return. -/
def isGap (c : Char) : Bool := c == ' ' || c == '\t' || c == '\n' || c == '\r'

/-- The token that begins with `c`, and what follows it. -/
def readToken? (c : Char) (rest : List Char) : Option (Token × List Char) :=
  match c with
  | '[' => some (.openBracket, rest)
  | ']' => some (.closeBracket, rest)
  | '{' => some (.openBrace, rest)
  | '}' => some (.closeBrace, rest)
  | ':' => some (.colon, rest)
  | ',' => some (.comma, rest)
  | '"' => (readString? rest).map fun s => (.scalar (.string (s.1.map String.ofList)), s.2)
  | 'n' => (['u', 'l', 'l'].isPrefixOf? rest).map fun r => (.scalar .null, r)
  | 't' => (['r', 'u', 'e'].isPrefixOf? rest).map fun r => (.scalar (.bool true), r)
  | 'f' => (['a', 'l', 's', 'e'].isPrefixOf? rest).map fun r => (.scalar (.bool false), r)
  | c =>
    match takeLiteral? (c :: rest) with
    | some (_, after) =>
      let literal := (c :: rest).take (rest.length + 1 - after.length)
      some (.scalar (.number (String.ofList literal)), after)
    | none => none

theorem keyword_length_le {word cs rest : List Char} {s t : Token}
    (h : (word.isPrefixOf? cs).map (fun r => (s, r)) = some (t, rest)) :
    rest.length ≤ cs.length := by
  obtain ⟨r, hr, h⟩ := Option.map_eq_some_iff.1 h
  cases h
  exact (suffix_of_isPrefixOf? hr).length_le

theorem readToken?_length_le {c : Char} {cs rest : List Char} {t : Token}
    (h : readToken? c cs = some (t, rest)) : rest.length ≤ cs.length := by
  unfold readToken? at h
  split at h
  all_goals try (cases h; exact Nat.le_refl _)
  · obtain ⟨⟨s, r⟩, hs, h⟩ := Option.map_eq_some_iff.1 h
    cases h
    exact readString?_length_le hs
  · exact keyword_length_le h
  · exact keyword_length_le h
  · exact keyword_length_le h
  · split at h
    · rename_i hl
      simp only [Option.some.injEq, Prod.mk.injEq] at h
      rw [← h.2]
      exact Nat.le_of_lt_succ (takeLiteral?_length_lt hl)
    · cases h

/-- The tokens of a text, unless something in it is no token. -/
def tokens? (cs : List Char) : Option (List Token) :=
  match _front : cs.dropWhile isGap with
  | [] => some []
  | c :: rest =>
    match _read : readToken? c rest with
    | none => none
    | some (t, rest') => (tokens? rest').map (t :: ·)
termination_by cs.length
decreasing_by
  have h1 := (List.dropWhile_sublist (l := cs) isGap).length_le
  have h2 := readToken?_length_le _read
  rw [_front, List.length_cons] at h1
  omega

end DesignVars.Json
