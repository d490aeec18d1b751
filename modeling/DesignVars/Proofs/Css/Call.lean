import DesignVars.Proofs.Css.Component
import DesignVars.Proofs.Css.Token
import DesignVars.Proofs.Text.Bytes

/-!
# The first token of a text

* `tokens_call`: a name in any case and a parenthesis are the beginning of a call;
* `Token.lead`, `lead?`: the name of the function that a text begins with, in lower case;
* `lead?_of_prefix`, `lead?_number`, `lead?_block`: what it is for a text that begins like a call or
  like a number, and for one that is a single block.
-/

namespace DesignVars.Css

open Text

/-! ## Names in any case -/

theorem isNameLetter_of_toLower {c : Char} (h : isNameLetter c.toLower = true) :
    isNameLetter c = true := by
  refine of_ascii (Q := fun c => isNameLetter c.toLower = true → isNameLetter c = true) ?_
    (toNat_lt_of_toLower (toNat_lt_of_isNameLetter h)) h
  decide +kernel

theorem isLetter_of_toLower {c : Char} (h : isLetter c.toLower = true) : isLetter c = true := by
  refine of_ascii (Q := fun c => isLetter c.toLower = true → isLetter c = true) ?_
    (toNat_lt_of_toLower (toNat_lt_of_isLetter h)) h
  decide +kernel

theorem eq_of_toLower_open {c : Char} (h : c.toLower = '(') : c = '(' := by
  refine of_ascii (Q := fun c => c.toLower = '(' → c = '(') ?_
    (toNat_lt_of_toLower (h ▸ by decide)) h
  decide +kernel

theorem exists_of_lower {cs name rest : List Char} (h : lower cs = name ++ '(' :: rest) :
    ∃ w r, cs = w ++ '(' :: r ∧ lower w = name := by
  obtain ⟨w, t, rfl, hw, ht⟩ := List.map_eq_append_iff.1 h
  obtain ⟨c, r, rfl, hc, -⟩ := List.map_eq_cons_iff.1 ht
  exact ⟨w, r, by rw [eq_of_toLower_open hc], hw⟩

/-! ## Calls -/

theorem letter_spec {c : Char} (h : isLetter c = true) : isDigit c = false ∧ isSpace c = false ∧
    startsName c = true ∧ c ∉ ['.', '+', '-', '/', '*', '"', '\'', '#', '@', '\\'] := by
  refine of_ascii (Q := fun c => isLetter c = true → isDigit c = false ∧ isSpace c = false ∧
    startsName c = true ∧ c ∉ ['.', '+', '-', '/', '*', '"', '\'', '#', '@', '\\']) ?_
    (toNat_lt_of_isLetter h) h
  decide +kernel

theorem readMark?_letter {c : Char} (h : isLetter c = true) (r : List Char) :
    readMark? (c :: r) = none := by
  have hmarks : ∀ m ∈ marks, m.toList.head?.any (fun d => !isLetter d) = true := by decide +kernel
  refine List.findSome?_eq_none_iff.2 fun m hm => ?_
  obtain ⟨d, hd, hl⟩ := (Option.any_eq_true _ _).1 (hmarks m hm)
  obtain ⟨ds, he⟩ := List.head?_eq_some_iff.1 hd
  have hne : d ≠ c := by
    rintro rfl
    rw [h] at hl
    cases hl
  rw [he, isPrefixOf?_cons, if_neg (by simpa using hne), Option.map_none]

theorem readToken_letter {c : Char} (h : isLetter c = true) (r : List Char) :
    readToken c r = readIdentLike (c :: r) := by
  obtain ⟨hdigit, -, hstart, hc⟩ := letter_spec h
  simp only [List.mem_cons, List.not_mem_nil, or_false, not_or] at hc
  obtain ⟨hpoint, hplus, hminus, -, -, hquote, hquote', hhash, hat, hescape⟩ := hc
  have hname : atName (c :: r) = true := (atName.eq_5 c r hminus hescape).trans hstart
  have hnumber : atNumber (c :: r) = false :=
    atNumber_eq_false hdigit (by simp [hpoint, hplus, hminus]) r
  simp [readToken, hnumber, hquote, hquote', hhash, hat, readMark?_letter h, hname]

/-- A name in any case and a parenthesis are a function, unless they begin an unquoted address. -/
theorem tokens_call {w name : List Char} (hw : lower w = name)
    (hstart : name.head?.any isLetter = true) (hname : name.all isNameLetter = true)
    (hurl : name ≠ "url".toList) (r : List Char) :
    tokens (w ++ '(' :: r) = .opening (.function (String.ofList w)) :: tokens r := by
  subst hw
  have hletters : ∀ c ∈ w, isNameLetter c = true := fun c hc =>
    isNameLetter_of_toLower (List.all_eq_true.1 hname _ (List.mem_map_of_mem hc))
  have hread : readName (w ++ '(' :: r) = (w, '(' :: r) :=
    readName_append hletters (by rintro _ ⟨⟩; decide)
  have hsame : sameLetters (String.ofList w) "url" = false := by
    rw [sameLetters, String.toList_ofList, beq_eq_false_iff_ne]
    exact hurl
  cases w with
  | nil => cases hstart
  | cons c w =>
    have hc : isLetter c = true := isLetter_of_toLower ((Option.any_some ..).symm.trans hstart)
    obtain ⟨-, hspace, -, hne⟩ := letter_spec hc
    simp only [List.mem_cons, List.not_mem_nil, or_false, not_or] at hne
    have ht : readToken c (w ++ '(' :: r) = (.opening (.function (String.ofList (c :: w))), r) := by
      rw [readToken_letter hc, ← List.cons_append, readIdentLike, hread]
      simp only [hsame, Bool.false_eq_true, if_false]
    rw [List.cons_append, tokens_cons hspace ⟨hne.2.2.2.1, hne.2.2.2.2.1⟩, ht]

/-- The name of a function, in lower case; other tokens have an empty one. -/
def Token.lead : Token → List Char
  | .opening (.function f) => lower f.toList
  | _ => []

/-- The name that the first token has. -/
def lead? (cs : List Char) : Option (List Char) := (tokens cs).head?.map Token.lead

theorem lead?_of_prefix {cs name : List Char} (h : name ++ ['('] <+: lower cs)
    (hstart : name.head?.any isLetter = true) (hname : name.all isNameLetter = true)
    (hurl : name ≠ "url".toList) : lead? cs = some name := by
  obtain ⟨rest, h⟩ := h
  rw [List.append_assoc] at h
  obtain ⟨w, r, rfl, rfl⟩ := exists_of_lower h.symm
  rw [lead?, tokens_call rfl hstart hname hurl r, List.head?_cons, Option.map_some, Token.lead,
    String.toList_ofList]

/-! ## Numbers -/

theorem atNumber_append {cs : List Char} (h : atNumber cs = true) (ds : List Char) :
    atNumber (cs ++ ds) = true := by
  rcases cs with _ | ⟨c, _ | ⟨d, _ | ⟨e, cs⟩⟩⟩
  · cases h
  · have hc : isDigit c = true := h
    rcases ds with _ | ⟨d, _ | ⟨e, ds⟩⟩ <;> simp [atNumber, hc]
  · rcases ds with _ | ⟨e, ds⟩
    · exact h
    · simp only [atNumber, List.cons_append, List.nil_append, Bool.or_eq_true,
        Bool.and_eq_true] at h ⊢
      exact h.imp_right fun hsign => ⟨hsign.1, .inl hsign.2⟩
  · exact h

theorem lead?_number {cs : List Char} (h : atNumber cs = true) : lead? cs = some [] := by
  cases cs with
  | nil => cases h
  | cons c r =>
    have hc : isDigit c = true ∨ c ∈ ['.', '+', '-'] := by
      by_contra hn
      rw [not_or, Bool.not_eq_true] at hn
      rw [atNumber_eq_false hn.1 hn.2] at h
      cases h
    have hspace : isSpace c = false ∧ c ≠ '/' ∧ c ≠ '*' := by
      rcases hc with hc | hc
      · refine of_ascii (Q := fun c => isDigit c = true → isSpace c = false ∧ c ≠ '/' ∧ c ≠ '*') ?_
          (toNat_lt_of_isDigit hc) hc
        decide +kernel
      · simp only [List.mem_cons, List.not_mem_nil, or_false] at hc
        rcases hc with rfl | rfl | rfl <;> decide
    rw [lead?, tokens_cons hspace.1 hspace.2 r, readToken, if_pos h]
    rcases readNumeric_cases (c :: r) with ⟨_, _, ht⟩ | ⟨_, _, ht⟩ | ⟨_, _, _, ht⟩ <;>
      rw [ht] <;> rfl

/-! ## Blocks -/

theorem lead?_block {text : String} {o : Opening} {body : List Component}
    (h : components text = [.block o body]) :
    lead? text.toList = some (Token.opening o).lead := by
  obtain ⟨closings, hc⟩ := tokensOf_ofTokens (tokens text.toList)
  rw [← components, h, tokensOf, Component.tokens, List.cons_append] at hc
  rw [lead?]
  cases ht : tokens text.toList with
  | nil =>
    rw [ht] at hc
    cases closings <;> cases hc
  | cons t ts =>
    rw [ht] at hc
    rw [List.head?_cons, (List.cons.inj hc).1, Option.map_some]

end DesignVars.Css
