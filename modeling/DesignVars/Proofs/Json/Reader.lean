import DesignVars.Json.Reader
import DesignVars.Proofs.Json.Token

/-!
# Reading what was written

* `tokens`: the tokens of a value;
* `tokens?_prettyAt`: a text over several lines has the tokens of its value;
* `foldlM_tokens`: taking in the tokens of a value puts it in its place;
* **`read?_pretty`**: a written value is read back, if all its texts exist and all its numbers are
  in range.
-/

namespace DesignVars.Json

/-! ## The tokens of a value -/

mutual

/-- The tokens of a value. -/
def tokens : Json → List Token
  | .null => [.scalar .null]
  | .bool b => [.scalar (.bool b)]
  | .number literal => [.scalar (.number literal)]
  | .string s => [.scalar (.string s)]
  | .array items => .openBracket :: ((itemTokens items).tail ++ [.closeBracket])
  | .object fields => .openBrace :: ((fieldTokens fields).tail ++ [.closeBrace])

/-- The tokens of some items, each with a comma before it. -/
def itemTokens : List Json → List Token
  | [] => []
  | v :: vs => .comma :: (v.tokens ++ itemTokens vs)

/-- The tokens of some fields, each with a comma before it. -/
def fieldTokens : List (Chars × Json) → List Token
  | [] => []
  | (key, v) :: fs => .comma :: .scalar (.string key) :: .colon :: (v.tokens ++ fieldTokens fs)

end

/-! ## Layout -/

/-- Parts on their own lines, each with a comma before it. -/
def following (depth : Nat) (parts : List String) : List Char :=
  parts.flatMap fun p => ',' :: ((newline depth).toList ++ p.toList)

theorem following_cons (depth : Nat) (p : String) (ps : List String) (cs : List Char) :
    following depth (p :: ps) ++ cs =
      ',' :: ((newline depth).toList ++ (p.toList ++ (following depth ps ++ cs))) := by
  simp [following]

theorem toList_newline (depth : Nat) :
    (newline depth).toList = '\n' :: List.replicate (2 * depth) ' ' := by
  simp [newline]

theorem tokens?_newline (depth : Nat) (cs : List Char) :
    tokens? ((newline depth).toList ++ cs) = tokens? cs := by
  refine tokens?_gaps (fun c hc => ?_) cs
  rw [toList_newline, List.mem_cons, List.mem_replicate] at hc
  rcases hc with rfl | ⟨-, rfl⟩ <;> decide

theorem stops_newline (depth : Nat) (cs : List Char) : Stops ((newline depth).toList ++ cs) := by
  rw [toList_newline]
  intro c hc
  cases hc
  decide

theorem stops_following (depth : Nat) (parts : List String) {cs : List Char} (h : Stops cs) :
    Stops (following depth parts ++ cs) := by
  cases parts with
  | nil => exact h
  | cons p ps =>
    intro c hc
    cases hc
    decide

theorem toList_intercalate_comma (p : String) (ps : List String) :
    (",".intercalate (p :: ps)).toList = p.toList ++ ps.flatMap fun q => ',' :: q.toList := by
  induction ps generalizing p with
  | nil => simp
  | cons q ps ih => simp [String.intercalate_cons_cons, ih]

theorem toList_openBracket : "[".toList = ['['] := rfl

theorem toList_closeBracket : "]".toList = [']'] := rfl

theorem toList_openBrace : "\x7b".toList = ['{'] := rfl

theorem toList_closeBrace : "\x7d".toList = ['}'] := rfl

section Enclosing

variable {opening closing : String} {o c : Char} (ho : opening.toList = [o])
  (hc : closing.toList = [c]) (depth : Nat) (rest : List Char)

include ho hc

theorem toList_enclose_nil :
    (enclose opening closing depth []).toList ++ rest = o :: c :: rest := by
  simp [enclose, ho, hc]

theorem toList_enclose_cons (p : String) (ps : List String) :
    (enclose opening closing depth (p :: ps)).toList ++ rest =
      o :: ((newline (depth + 1)).toList ++ (p.toList ++
        (following (depth + 1) ps ++ ((newline depth).toList ++ c :: rest)))) := by
  simp only [enclose, List.map_cons, String.toList_append, toList_intercalate_comma, following,
    List.flatMap_map, List.append_assoc, ho, hc]
  rfl

end Enclosing

/-! ## Writing -/

section Marks

variable (cs : List Char)

theorem tokens?_comma : tokens? (',' :: cs) = (tokens? cs).map (.comma :: ·) :=
  tokens?_cons (by decide) rfl

theorem tokens?_colon : tokens? (':' :: cs) = (tokens? cs).map (.colon :: ·) :=
  tokens?_cons (by decide) rfl

theorem tokens?_blank : tokens? (' ' :: cs) = tokens? cs :=
  tokens?_gaps (List.forall_mem_singleton.2 (show isGap ' ' = true from rfl)) cs

theorem tokens?_openBracket : tokens? ('[' :: cs) = (tokens? cs).map (.openBracket :: ·) :=
  tokens?_cons (by decide) rfl

theorem tokens?_closeBracket : tokens? (']' :: cs) = (tokens? cs).map (.closeBracket :: ·) :=
  tokens?_cons (by decide) rfl

theorem tokens?_openBrace : tokens? ('{' :: cs) = (tokens? cs).map (.openBrace :: ·) :=
  tokens?_cons (by decide) rfl

theorem tokens?_closeBrace : tokens? ('}' :: cs) = (tokens? cs).map (.closeBrace :: ·) :=
  tokens?_cons (by decide) rfl

end Marks

theorem tokens?_field (key p : String) (cs : List Char) :
    tokens? ((quote key ++ ": " ++ p).toList ++ cs) =
      (tokens? (p.toList ++ cs)).map fun ts => .scalar (.string (some key)) :: .colon :: ts := by
  have h : (quote key ++ ": " ++ p).toList ++ cs =
      (quote key).toList ++ (':' :: ' ' :: (p.toList ++ cs)) := by
    simp
  rw [h, tokens?_quote, tokens?_colon, tokens?_blank, Option.map_map]
  rfl

mutual

/-- A written value has its tokens, if no character of a number follows. -/
theorem tokens?_prettyAt (depth : Nat) {rest : List Char} (h : Stops rest) : ∀ v : Json,
    v.isClean = true →
      tokens? ((prettyAt depth v).toList ++ rest) = (tokens? rest).map (v.tokens ++ ·)
  | .null, _ => by
    rw [prettyAt, tokens]
    exact tokens?_cons (by decide) rfl
  | .bool true, _ => by
    rw [prettyAt, tokens]
    exact tokens?_cons (by decide) rfl
  | .bool false, _ => by
    rw [prettyAt, tokens]
    exact tokens?_cons (by decide) rfl
  | .number literal, hv => by
    rw [isClean, floatOfNumber?] at hv
    rw [prettyAt, tokens]
    split at hv
    · rename_i hl
      exact tokens?_number h hl
    · cases hv
  | .string s, hv => by
    obtain ⟨s, rfl⟩ := Option.isSome_iff_exists.1 hv
    rw [prettyAt, tokens]
    exact tokens?_quote s rest
  | .array [], _ => by
    rw [prettyAt, prettyItems, toList_enclose_nil toList_openBracket toList_closeBracket,
      tokens?_openBracket, tokens?_closeBracket, Option.map_map]
    rfl
  | .array (v :: vs), hv => by
    simp only [isClean, areClean, Bool.and_eq_true] at hv
    have hs := stops_newline depth (']' :: rest)
    have hvs := tokens?_prettyItems (depth + 1) hs vs hv.2
    have hf := stops_following (depth + 1) (prettyItems (depth + 1) vs) hs
    have hv := tokens?_prettyAt (depth + 1) hf v hv.1
    rw [prettyAt, prettyItems, toList_enclose_cons toList_openBracket toList_closeBracket,
      tokens?_openBracket, tokens?_newline, hv, hvs, tokens?_newline, tokens?_closeBracket]
    simp [tokens, itemTokens, Function.comp_def]
  | .object [], _ => by
    rw [prettyAt, prettyFields, toList_enclose_nil toList_openBrace toList_closeBrace,
      tokens?_openBrace, tokens?_closeBrace, Option.map_map]
    rfl
  | .object ((key, v) :: fs), hv => by
    simp only [isClean, fieldsAreClean, Bool.and_eq_true, Option.isSome_iff_exists] at hv
    obtain ⟨⟨⟨key, rfl⟩, hv⟩, hfs⟩ := hv
    have hs := stops_newline depth ('}' :: rest)
    have hf := stops_following (depth + 1) (prettyFields (depth + 1) fs) hs
    have hfs := tokens?_prettyFields (depth + 1) hs fs hfs
    have hv := tokens?_prettyAt (depth + 1) hf v hv
    rw [prettyAt, prettyFields, toList_enclose_cons toList_openBrace toList_closeBrace,
      tokens?_openBrace, tokens?_newline,
      Option.getD_some, tokens?_field, hv, hfs, tokens?_newline, tokens?_closeBrace]
    simp [tokens, fieldTokens, Function.comp_def]

theorem tokens?_prettyItems (depth : Nat) {rest : List Char} (h : Stops rest) : ∀ vs : List Json,
    areClean vs = true →
      tokens? (following depth (prettyItems depth vs) ++ rest) =
        (tokens? rest).map (itemTokens vs ++ ·)
  | [], _ => by simp [prettyItems, following, itemTokens]
  | v :: vs, hv => by
    simp only [areClean, Bool.and_eq_true] at hv
    have hvs := tokens?_prettyItems depth h vs hv.2
    have hf := stops_following depth (prettyItems depth vs) h
    have hv := tokens?_prettyAt depth hf v hv.1
    rw [prettyItems, following_cons, tokens?_comma, tokens?_newline, hv, hvs]
    simp [itemTokens, Function.comp_def]

theorem tokens?_prettyFields (depth : Nat) {rest : List Char} (h : Stops rest) :
    ∀ fs : List (Chars × Json), fieldsAreClean fs = true →
      tokens? (following depth (prettyFields depth fs) ++ rest) =
        (tokens? rest).map (fieldTokens fs ++ ·)
  | [], _ => by simp [prettyFields, following, fieldTokens]
  | (key, v) :: fs, hv => by
    simp only [fieldsAreClean, Bool.and_eq_true, Option.isSome_iff_exists] at hv
    obtain ⟨⟨⟨key, rfl⟩, hv⟩, hfs⟩ := hv
    have hf := stops_following depth (prettyFields depth fs) h
    have hfs := tokens?_prettyFields depth h fs hfs
    have hv := tokens?_prettyAt depth hf v hv
    rw [prettyFields, following_cons, tokens?_comma, tokens?_newline, Option.getD_some,
      tokens?_field, hv, hfs]
    simp [fieldTokens, Function.comp_def]

end

/-! ## Taking in -/

def Stage.Takes (s : Stage) : Prop := s = .value ∨ s = .valueOrEnd

theorem step_begin {stage : Stage} (h : stage.Takes) {frames : List Frame} {t : Token} {s : State}
    (hb : State.begin frames t = some s) : State.step ⟨frames, stage⟩ t = some s := by
  rcases h with rfl | rfl
  · exact hb
  · simp [State.step, hb]

section Steps

variable {s s' : State} {t : Token} {ts us : List Token}

theorem foldlM_step (h : s.step t = some s') :
    (t :: ts).foldlM State.step s = ts.foldlM State.step s' := by
  rw [List.foldlM_cons, h]
  rfl

theorem foldlM_steps (h : ts.foldlM State.step s = some s') :
    (ts ++ us).foldlM State.step s = us.foldlM State.step s' := by
  rw [List.foldlM_append, h]
  rfl

end Steps

theorem foldlM_scalar (frames : List Frame) {stage : Stage} (h : stage.Takes) (v : Json) :
    [Token.scalar v].foldlM State.step ⟨frames, stage⟩ = some (State.place v frames) :=
  foldlM_step (step_begin h rfl)

mutual

/-- The tokens of a value put it in its place. -/
theorem foldlM_tokens (frames : List Frame) {stage : Stage} (h : stage.Takes) : ∀ v : Json,
    v.tokens.foldlM State.step ⟨frames, stage⟩ = some (State.place v frames)
  | .null => foldlM_scalar frames h .null
  | .bool b => foldlM_scalar frames h (.bool b)
  | .number literal => foldlM_scalar frames h (.number literal)
  | .string s => foldlM_scalar frames h (.string s)
  | .array [] => (foldlM_step (step_begin h rfl)).trans (foldlM_step rfl)
  | .array (v :: vs) => by
    rw [tokens, itemTokens, List.tail_cons, List.append_assoc]
    refine (foldlM_step (step_begin h rfl)).trans ?_
    refine (foldlM_steps (foldlM_tokens (.array [] :: frames) (.inr rfl) v)).trans ?_
    refine (foldlM_steps (foldlM_itemTokens frames vs [v])).trans ?_
    refine (foldlM_step rfl).trans ?_
    rw [List.reverse_append, List.reverse_reverse]
    rfl
  | .object [] => (foldlM_step (step_begin h rfl)).trans (foldlM_step rfl)
  | .object ((key, v) :: fs) => by
    rw [tokens, fieldTokens, List.tail_cons, List.cons_append, List.cons_append, List.append_assoc]
    refine (foldlM_step (step_begin h rfl)).trans ?_
    refine (foldlM_step rfl).trans ((foldlM_step rfl).trans ?_)
    refine (foldlM_steps (foldlM_tokens (.object [] key :: frames) (.inl rfl) v)).trans ?_
    refine (foldlM_steps (foldlM_fieldTokens frames fs [(key, v)])).trans ?_
    refine (foldlM_step rfl).trans ?_
    rw [List.reverse_append, List.reverse_reverse]
    rfl

theorem foldlM_itemTokens (frames : List Frame) : ∀ vs items : List Json,
    (itemTokens vs).foldlM State.step ⟨.array items :: frames, .more⟩ =
      some ⟨.array (vs.reverse ++ items) :: frames, .more⟩
  | [], items => rfl
  | v :: vs, items => by
    rw [itemTokens, List.reverse_cons, List.append_assoc]
    refine (foldlM_step rfl).trans ?_
    refine (foldlM_steps (foldlM_tokens (.array items :: frames) (.inl rfl) v)).trans ?_
    exact foldlM_itemTokens frames vs (v :: items)

theorem foldlM_fieldTokens (frames : List Frame) : ∀ fs fields : List (Chars × Json),
    (fieldTokens fs).foldlM State.step ⟨.object fields none :: frames, .more⟩ =
      some ⟨.object (fs.reverse ++ fields) none :: frames, .more⟩
  | [], fields => rfl
  | (key, v) :: fs, fields => by
    rw [fieldTokens, List.reverse_cons, List.append_assoc]
    refine (foldlM_step rfl).trans ((foldlM_step rfl).trans ((foldlM_step rfl).trans ?_))
    refine (foldlM_steps (foldlM_tokens (.object fields key :: frames) (.inl rfl) v)).trans ?_
    exact foldlM_fieldTokens frames fs ((key, v) :: fields)

end

/-- **A written value is read back.** -/
theorem read?_pretty {v : Json} (h : v.isClean = true) : read? v.pretty = some v := by
  have hw := tokens?_prettyAt 0 (show Stops [] from nofun) v h
  rw [List.append_nil, tokens?_nil, Option.map_some, List.append_nil] at hw
  rw [read?, pretty, hw, Option.bind_some, ofTokens?, foldlM_tokens [] (.inl rfl) v]
  rfl

end DesignVars.Json
