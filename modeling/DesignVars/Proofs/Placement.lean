import DesignVars.Entry
import DesignVars.Proofs.Css.Component
import DesignVars.Proofs.Css.Token

/-!
# Selectors that name a mode

* `tokens_modeSelector`: the tokens of the selector that is written for a mode;
* **`ofSelector_modeSelector`**: so it names that mode, while `:root` names none;
* `attribute_of_ofSelector`, `length_of_ofSelector`: what a selector that names a mode has in it;
* `mode_of_placement`: the mode of a declaration is named by a selector or by a media query.
-/

namespace DesignVars

open Text Css

/-! ## The selector of a mode -/

theorem toList_modeSelector (mode : String) : (modeSelector mode).toList =
    "[data-mode=".toList ++ '"' :: (mode.toList ++ ['"', ']']) := by
  rw [show modeSelector mode = "[data-mode=\"" ++ mode ++ "\"]" from rfl]
  simp

theorem tokens_dataMode (r : List Char) :
    tokens ("[data-mode=".toList ++ '"' :: r) = .opening .square :: .ident "data-mode" ::
      .delim '=' :: (readToken '"' r).1 :: tokens (readToken '"' r).2 := by
  have hopen (r) : readToken '[' ("data-mode=".toList ++ r) =
      (.opening .square, "data-mode=".toList ++ r) := rfl
  have hname (r) : readToken 'd' ("ata-mode=".toList ++ r) = (.ident "data-mode", '=' :: r) := by
    have hr : readName ("data-mode".toList ++ '=' :: r) = ("data-mode".toList, '=' :: r) :=
      readName_append (List.all_eq_true.1 rfl) (by rintro _ ⟨⟩; decide)
    have hi : readToken 'd' ("ata-mode=".toList ++ r) =
      readIdentLike ("data-mode".toList ++ '=' :: r) := rfl
    rw [hi, readIdentLike, hr, String.ofList_toList]
    rfl
  have hequals (r) : readToken '=' ('"' :: r) = (.delim '=', '"' :: r) := by
    cases r <;> rfl
  have hsplit : "[data-mode=".toList ++ '"' :: r = '[' :: ("data-mode=".toList ++ '"' :: r) := rfl
  have hsplit' (r) : "data-mode=".toList ++ r = 'd' :: ("ata-mode=".toList ++ r) := rfl
  rw [hsplit, tokens_cons rfl (by decide), hopen, hsplit', tokens_cons rfl (by decide), hname,
    tokens_cons rfl (by decide), hequals, tokens_cons rfl (by decide)]

theorem readToken_quote (r : List Char) : readToken '"' r =
    (if (readQuoted '"' r).2.2 then .quoted (String.ofList (readQuoted '"' r).1) else .badString,
      (readQuoted '"' r).2.1) := by
  rw [readToken, atNumber_eq_false (by decide) (by decide)]
  rfl

theorem tokens_modeSelector {mode : String} (h : ∀ c ∈ mode.toList, isQuotable c = true) :
    tokens (modeSelector mode).toList = [.opening .square, .ident "data-mode", .delim '=',
      .quoted mode, .closing .square] := by
  have hquote : readToken '"' (mode.toList ++ ['"', ']']) = (.quoted mode, [']']) := by
    rw [readToken_quote, readQuoted_append h]
    simp
  have hclose : readToken ']' [] = (.closing .square, []) := rfl
  rw [toList_modeSelector, tokens_dataMode, hquote, tokens_cons rfl (by decide), hclose, tokens_nil]

/-! ## Placements -/

theorem isAllBlank_of_isValidName {name : String} (h : isValidName name = true) :
    isAllBlank name.toList = false := by
  have hne : name.toList ≠ [] := by
    intro he
    rw [String.toList_eq_nil_iff.1 he] at h
    cases h
  obtain ⟨c, cs, hc⟩ := List.exists_cons_of_ne_nil hne
  have hl := isNameLetter_of_mem_toList h c (hc ▸ List.mem_cons_self)
  rw [hc, isAllBlank, List.all_cons, (isPlain_of_isNameLetter hl).2.1, Bool.false_and]

theorem isQuotable_of_isValidName {name : String} (h : isValidName name = true) :
    ∀ c ∈ name.toList, isQuotable c = true := fun c hc =>
  isQuotable_of_isNameLetter (isNameLetter_of_mem_toList h c hc)

theorem ofSelector_root : Placement.ofSelector ":root" = .topLevel := by decide +kernel

/-- **The selector that is written for a mode names it**, if the mode is not blank and nothing in
it needs an escape. -/
theorem ofSelector_modeSelector {mode : String} (h : ∀ c ∈ mode.toList, isQuotable c = true)
    (hb : isAllBlank mode.toList = false) :
    Placement.ofSelector (modeSelector mode) = .mode mode := by
  have hc : components (modeSelector mode) = [.block .square
      [.token (.ident "data-mode"), .token (.delim '='), .token (.quoted mode)]] := by
    rw [components, tokens_modeSelector h]
    rfl
  have hm : modeOfAttribute? [.token (.ident "data-mode"), .token (.delim '='),
      .token (.quoted mode)] = some mode := by
    have hd : isDataAttribute "data-mode" = true := by decide
    simp [modeOfAttribute?, hd, hb]
  simp [Placement.ofSelector, hc, attributes, hm]

/-! ## Attributes -/

/-- What names a mode: a data attribute, an equals sign and the mode as a name or a string. -/
theorem modeOfAttribute?_eq_some {cs : List Component} {mode : String}
    (h : modeOfAttribute? cs = some mode) : isAllBlank mode.toList = false ∧ ∃ name value,
      cs = [Token.ident name, .delim '=', value].map .token ∧ isDataAttribute name = true ∧
        (value = .ident mode ∨ value = .quoted mode) := by
  unfold modeOfAttribute? at h
  split at h
  · rename_i name value
    split_ifs at h with hd
    split at h
    · split_ifs at h with hb
      cases h
      exact ⟨by simpa using hb, name, _, rfl, hd, .inl rfl⟩
    · split_ifs at h with hb
      cases h
      exact ⟨by simpa using hb, name, _, rfl, hd, .inr rfl⟩
    · cases h
  · cases h

theorem block_of_mem_attributes {cs body : List Component} (h : body ∈ attributes cs) :
    .block .square body ∈ cs := by
  obtain ⟨c, hc, hb⟩ := List.mem_filterMap.1 h
  split at hb
  · cases hb
    exact hc
  · cases hb

theorem le_length_of_isDataAttribute {name : String} (h : isDataAttribute name = true) :
    6 ≤ name.toList.length := by
  unfold isDataAttribute at h
  split at h
  · rename_i rest hr
    have hlen := congrArg List.length (List.append_eq_of_isPrefixOf?_eq_some hr)
    have hne : rest.length ≠ 0 := by simpa using h
    simp only [List.length_append, List.length_cons, List.length_nil] at hlen
    omega
  · cases h

section Selector

variable {selector mode : String}

theorem attribute_of_ofSelector (h : Placement.ofSelector selector = .mode mode) :
    isAllBlank mode.toList = false ∧ ∃ name value, isDataAttribute name = true ∧
      (value = .ident mode ∨ value = .quoted mode) ∧
        [.opening .square, .ident name, .delim '=', value] <:+: tokens selector.toList := by
  have hm : (attributes (components selector)).findSome? modeOfAttribute? = some mode := by
    simp only [Placement.ofSelector] at h
    split at h
    · cases h
      assumption
    · split_ifs at h
  obtain ⟨body, hbody, hm⟩ := List.exists_of_findSome?_eq_some hm
  obtain ⟨hb, name, value, rfl, hd, hv⟩ := modeOfAttribute?_eq_some hm
  refine ⟨hb, name, value, hd, hv, isInfix_tokens (block_of_mem_attributes hbody) ?_⟩
  rcases hv with rfl | rfl <;> simp

theorem letters_attribute {name : String} {value : Token}
    (hv : value = .ident mode ∨ value = .quoted mode) :
    [Token.opening .square, .ident name, .delim '=', value].flatMap Token.letters =
      name.toList ++ mode.toList := by
  rcases hv with rfl | rfl <;> simp [Token.letters]

/-- A mode has no more characters than the tokens that name it, less six of the attribute. -/
theorem length_of_isInfix {name : String} {value : Token} {cs : List Char}
    (hd : isDataAttribute name = true) (hv : value = .ident mode ∨ value = .quoted mode)
    (h : [.opening .square, .ident name, .delim '=', value] <:+: tokens cs) :
    mode.toList.length + 6 ≤ cs.length := by
  have hl := (h.flatMap Token.letters).length_le
  have hn := le_length_of_isDataAttribute hd
  rw [letters_attribute hv, List.length_append] at hl
  have ht := (tokens_letters cs).2
  omega

theorem length_of_ofSelector (h : Placement.ofSelector selector = .mode mode) :
    mode.toList.length + 6 ≤ selector.toList.length := by
  obtain ⟨-, name, value, hd, hv, hi⟩ := attribute_of_ofSelector h
  exact length_of_isInfix hd hv hi

theorem zero_notMem_of_ofSelector (h : Placement.ofSelector selector = .mode mode) :
    '\x00' ∉ mode.toList := by
  obtain ⟨-, name, value, -, hv, hi⟩ := attribute_of_ofSelector h
  have hs := (hi.flatMap Token.letters).subset
  rw [letters_attribute hv] at hs
  exact fun h0 => (tokens_letters selector.toList).1 (hs (List.mem_append_right _ h0))

theorem ofSelector_eq_topLevel (h : '[' ∉ selector.toList) :
    Placement.ofSelector selector = .topLevel := by
  have ha : attributes (components selector) = [] := by
    rw [List.eq_nil_iff_forall_not_mem]
    intro body hb
    exact h (mem_of_mem_tokens_square (opening_mem_tokens (block_of_mem_attributes hb)))
  simp [Placement.ofSelector, ha]

end Selector

/-! ## Modes of declarations -/

theorem eq_of_modeOfAtRule? {prelude mode : String} (h : modeOfAtRule? prelude = some mode) :
    mode = lightMode ∨ mode = darkMode := by
  obtain ⟨query, -, hq⟩ := Option.bind_eq_some_iff.1 h
  obtain ⟨cs, -, hc⟩ := List.mem_filterMap.1 (List.mem_of_mem_getLast? hq)
  unfold modeOfFeature? at hc
  split at hc
  · split_ifs at hc with hs
    cases hc
    simp only [Bool.and_eq_true, Bool.or_eq_true, beq_iff_eq] at hs
    exact hs.2
  · cases hc

/-- The mode of a declaration is named by the selector around it or by a media query. -/
theorem mode_of_placement {d : Declaration} {mode : String} (h : d.placement = .mode mode) :
    (∃ selector ∈ d.selector, Placement.ofSelector selector = .mode mode) ∨
      mode = lightMode ∨ mode = darkMode := by
  unfold Declaration.placement at h
  split at h
  · cases hm : d.atRule.bind modeOfAtRule? with
    | none =>
      rw [hm] at h
      cases h
    | some m =>
      rw [hm] at h
      cases h
      obtain ⟨prelude, -, hp⟩ := Option.bind_eq_some_iff.1 hm
      exact .inr (eq_of_modeOfAtRule? hp)
  · cases hs : d.selector with
    | none =>
      rw [hs] at h
      cases h
    | some selector =>
      rw [hs] at h
      exact .inl ⟨selector, rfl, h⟩

theorem isAllBlank_of_placement {d : Declaration} {mode : String}
    (h : d.placement = .mode mode) : isAllBlank mode.toList = false := by
  rcases mode_of_placement h with ⟨selector, -, hs⟩ | rfl | rfl
  · exact (attribute_of_ofSelector hs).1
  · decide
  · decide

end DesignVars
