import DesignVars.Proofs.Css.Block
import DesignVars.Proofs.Placement

/-!
# Blocks that name a mode

Which mode a selector or a media query names is told from its tokens and their brackets.

* `NamesMode`, `NamesScheme`: what a square block and a parenthesis hold that name a mode;
* `ModeAt`, `SchemeAt`: such a block outside all others, with its position;
* `ofSelector_eq_mode_iff`, `ofSelector_eq_malformed_iff`: the first square block that names a
  mode decides for the selector;
* `modeOfAtRule?_eq_some_iff`: the last parenthesis that names a scheme decides for the query;
* **`placement_exact`**: the selector comes before the query.
-/

namespace DesignVars

open Text Css

/-! ## Bodies -/

theorem isDataAttribute_iff {name : String} : isDataAttribute name = true ↔
    ∃ c rest, name.toList = "data-".toList ++ c :: rest := by
  rw [isDataAttribute]
  constructor
  · intro h
    split at h
    · rename_i rest hr
      cases rest with
      | nil => cases h
      | cons c rest => exact ⟨c, rest, (List.append_eq_of_isPrefixOf?_eq_some hr).symm⟩
    · cases h
  · rintro ⟨c, rest, h⟩
    rw [h, show "data-".toList = ['d', 'a', 't', 'a', '-'] from rfl, isPrefixOf?_append]
    rfl

/-- These tokens are `data-` with something behind it, an equals sign, and the mode as an
identifier or a string that is not blank. -/
def NamesMode (mode : String) (body : List Token) : Prop :=
  ∃ name value, body = [.ident name, .delim '=', value] ∧
    (∃ c rest, name.toList = "data-".toList ++ c :: rest) ∧
    (value = .ident mode ∨ value = .quoted mode) ∧ isAllBlank mode.toList = false

/-- These tokens are `prefers-color-scheme` in any ASCII case, a colon and one of the two
schemes. -/
def NamesScheme (mode : String) (body : List Token) : Prop :=
  ∃ feature, body = [.ident feature, .colon, .ident mode] ∧
    sameLetters feature "prefers-color-scheme" = true ∧ (mode = lightMode ∨ mode = darkMode)

theorem modeOfAttribute?_ofTokens (mode : String) (body : List Token) :
    modeOfAttribute? (ofTokens body) = some mode ↔ NamesMode mode body := by
  constructor
  · intro h
    obtain ⟨hb, name, value, hbody, hd, hv⟩ := modeOfAttribute?_eq_some h
    refine ⟨name, value, (ofTokens_eq_map_iff ?_).1 hbody, isDataAttribute_iff.1 hd, hv, hb⟩
    rcases hv with rfl | rfl <;> simp
  · rintro ⟨name, value, rfl, hd, hv, hb⟩
    have hd := isDataAttribute_iff.2 hd
    rcases hv with rfl | rfl
    all_goals
      rw [(ofTokens_eq_map_iff (by simp)).2 rfl]
      simp [modeOfAttribute?, hd, hb]

theorem modeOfFeature?_ofTokens (mode : String) (body : List Token) :
    modeOfFeature? (ofTokens body) = some mode ↔ NamesScheme mode body := by
  constructor
  · intro h
    unfold modeOfFeature? at h
    split at h
    · rename_i feature scheme hbody
      split_ifs at h with hs
      cases h
      rw [Bool.and_eq_true, Bool.or_eq_true, beq_iff_eq, beq_iff_eq] at hs
      have htokens : body = [.ident feature, .colon, .ident mode] :=
        (ofTokens_eq_map_iff (by simp)).1 hbody
      exact ⟨feature, htokens, hs⟩
    · cases h
  · rintro ⟨feature, rfl, hs, hm⟩
    rw [(ofTokens_eq_map_iff (by simp)).2 rfl]
    simp [modeOfFeature?, hs, hm]

/-! ## The first and the last block -/

section Choice

variable {β : Type*} {o : Opening} {f : List Component → Option β} {Names : β → List Token → Prop}
  {ts : List Token} {b : β} (hf : ∀ b body, f (ofTokens body) = some b ↔ Names b body)

include hf

theorem eq_none_iff_of_names {body : List Token} :
    f (ofTokens body) = none ↔ ∀ b, ¬Names b body := by
  rw [Option.eq_none_iff_forall_ne_some]
  exact forall_congr' fun b => not_congr (hf b body)

theorem findSome?_blocks : ((ofTokens ts).filterMap (Component.bodyOf? o)).findSome? f = some b ↔
    ∃ i, (∃ body, TopBlock [] ts o i body ∧ Names b body) ∧
      ∀ j b', (∃ body, TopBlock [] ts o j body ∧ Names b' body) → i ≤ j := by
  rw [filterMap_bodyOf?_ofTokens, List.findSome?_map,
    findSome?_eq_some_iff_of_pairwise (fun _ _ => Nat.lt_asymm) (pairwise_topBlocks o [] 0 ts)]
  constructor
  · rintro ⟨⟨i, body⟩, hx, hb, hfirst⟩
    refine ⟨i, ⟨body, mem_topBlocks_iff.1 hx, (hf b body).1 hb⟩, fun j b' ⟨body', hj, hn⟩ => ?_⟩
    by_contra hlt
    exact (eq_none_iff_of_names hf).1
      (hfirst (j, body') (mem_topBlocks_iff.2 hj) (Nat.lt_of_not_le hlt)) b' hn
  · rintro ⟨i, ⟨body, hi, hn⟩, hfirst⟩
    refine ⟨(i, body), mem_topBlocks_iff.2 hi, (hf b body).2 hn, fun ⟨j, body'⟩ hj hlt => ?_⟩
    refine (eq_none_iff_of_names hf).2 fun b' hn' => ?_
    exact Nat.not_le_of_lt hlt (hfirst j b' ⟨body', mem_topBlocks_iff.1 hj, hn'⟩)

theorem findSome?_blocks_eq_none :
    ((ofTokens ts).filterMap (Component.bodyOf? o)).findSome? f = none ↔
      ∀ i b, ¬∃ body, TopBlock [] ts o i body ∧ Names b body := by
  rw [filterMap_bodyOf?_ofTokens, List.findSome?_map, List.findSome?_eq_none_iff]
  constructor
  · rintro h i b ⟨body, hi, hn⟩
    exact (eq_none_iff_of_names hf).1 (h (i, body) (mem_topBlocks_iff.2 hi)) b hn
  · rintro h ⟨i, body⟩ hi
    exact (eq_none_iff_of_names hf).2 fun b hn => h i b ⟨body, mem_topBlocks_iff.1 hi, hn⟩

theorem getLast?_blocks :
    (((ofTokens ts).filterMap (Component.bodyOf? o)).filterMap f).getLast? = some b ↔
      ∃ i, (∃ body, TopBlock [] ts o i body ∧ Names b body) ∧
        ∀ j b', (∃ body, TopBlock [] ts o j body ∧ Names b' body) → j ≤ i := by
  rw [filterMap_bodyOf?_ofTokens, List.getLast?_filterMap, ← List.map_reverse, List.findSome?_map,
    findSome?_eq_some_iff_of_pairwise (fun _ _ => Nat.lt_asymm)
      (List.pairwise_reverse.2 (pairwise_topBlocks o [] 0 ts))]
  constructor
  · rintro ⟨⟨i, body⟩, hx, hb, hlast⟩
    refine ⟨i, ⟨body, mem_topBlocks_iff.1 (List.mem_reverse.1 hx), (hf b body).1 hb⟩,
      fun j b' ⟨body', hj, hn⟩ => ?_⟩
    by_contra hlt
    exact (eq_none_iff_of_names hf).1 (hlast (j, body')
      (List.mem_reverse.2 (mem_topBlocks_iff.2 hj)) (Nat.lt_of_not_le hlt)) b' hn
  · rintro ⟨i, ⟨body, hi, hn⟩, hlast⟩
    refine ⟨(i, body), List.mem_reverse.2 (mem_topBlocks_iff.2 hi), (hf b body).2 hn,
      fun ⟨j, body'⟩ hj hlt => ?_⟩
    refine (eq_none_iff_of_names hf).2 fun b' hn' => ?_
    exact Nat.not_le_of_lt hlt
      (hlast j b' ⟨body', mem_topBlocks_iff.1 (List.mem_reverse.1 hj), hn'⟩)

end Choice

/-! ## Selectors -/

/-- A square block at this position, outside all other blocks, names the mode. -/
def ModeAt (ts : List Token) (i : Nat) (mode : String) : Prop :=
  ∃ body, TopBlock [] ts .square i body ∧ NamesMode mode body

/-- The first square block of the selector that names a mode names this one. -/
def SelectorNames (selector mode : String) : Prop :=
  ∃ i, ModeAt (tokens selector.toList) i mode ∧
    ∀ j other, ModeAt (tokens selector.toList) j other → i ≤ j

theorem attributes_eq (cs : List Component) :
    attributes cs = cs.filterMap (Component.bodyOf? .square) := by
  refine List.filterMap_congr fun c _ => ?_
  rcases c with t | ⟨o, body⟩
  · rfl
  · cases o <;> rfl

section Selector

variable {selector : String}

theorem attributes_eq_nil_iff : attributes (components selector) = [] ↔
    ∀ i body, ¬TopBlock [] (tokens selector.toList) .square i body := by
  rw [attributes_eq, components, filterMap_bodyOf?_ofTokens, List.map_eq_nil_iff,
    List.eq_nil_iff_forall_not_mem, Prod.forall]
  exact forall₂_congr fun i body => not_congr mem_topBlocks_iff

/-- What a selector makes of a declaration depends on the attributes in it. -/
theorem ofSelector_cases (selector : String) :
    (∃ mode, SelectorNames selector mode ∧ Placement.ofSelector selector = .mode mode) ∨
      (∀ i mode, ¬ModeAt (tokens selector.toList) i mode) ∧ Placement.ofSelector selector =
        if attributes (components selector) = [] then .topLevel else .malformed := by
  cases h : (attributes (components selector)).findSome? modeOfAttribute? with
  | some mode =>
    refine .inl ⟨mode, ?_, by simp only [Placement.ofSelector, h]⟩
    rw [attributes_eq] at h
    exact (findSome?_blocks modeOfAttribute?_ofTokens).1 h
  | none =>
    refine .inr ⟨?_, by simp only [Placement.ofSelector, h, List.isEmpty_iff]⟩
    rw [attributes_eq] at h
    exact (findSome?_blocks_eq_none modeOfAttribute?_ofTokens).1 h

theorem SelectorNames.unique {mode other : String} (h : SelectorNames selector mode)
    (h' : SelectorNames selector other) : mode = other := by
  have hm := (findSome?_blocks modeOfAttribute?_ofTokens).2 h
  exact Option.some.inj (hm.symm.trans ((findSome?_blocks modeOfAttribute?_ofTokens).2 h'))

theorem ofSelector_eq_mode_iff {mode : String} :
    Placement.ofSelector selector = .mode mode ↔ SelectorNames selector mode := by
  rcases ofSelector_cases selector with ⟨other, hother, h⟩ | ⟨hnone, h⟩
  · rw [h, Placement.mode.injEq]
    constructor
    · rintro rfl
      exact hother
    · exact hother.unique
  · rw [h]
    refine iff_of_false (by split_ifs <;> nofun) ?_
    rintro ⟨i, hi, -⟩
    exact hnone i mode hi

theorem ofSelector_eq_malformed_iff : Placement.ofSelector selector = .malformed ↔
    (∃ i body, TopBlock [] (tokens selector.toList) .square i body) ∧
      ∀ i mode, ¬ModeAt (tokens selector.toList) i mode := by
  have hnil := @attributes_eq_nil_iff selector
  rcases ofSelector_cases selector with ⟨mode, ⟨i, hi, -⟩, h⟩ | ⟨hnone, h⟩
  · rw [h]
    exact iff_of_false nofun fun hm => hm.2 i mode hi
  · rw [h]
    split_ifs with ha
    · refine iff_of_false nofun fun ⟨⟨i, body, hb⟩, _⟩ => hnil.1 ha i body hb
    · refine iff_of_true rfl ⟨?_, hnone⟩
      by_contra hb
      exact ha (hnil.2 fun i body h => hb ⟨i, body, h⟩)

theorem ofSelector_eq_topLevel_iff : Placement.ofSelector selector = .topLevel ↔
    ∀ i body, ¬TopBlock [] (tokens selector.toList) .square i body := by
  rw [← attributes_eq_nil_iff]
  rcases ofSelector_cases selector with ⟨mode, ⟨i, ⟨body, hb, -⟩, -⟩, h⟩ | ⟨-, h⟩
  · rw [h]
    exact iff_of_false nofun fun ha => attributes_eq_nil_iff.1 ha i body hb
  · rw [h]
    split_ifs with ha
    · exact iff_of_true rfl ha
    · exact iff_of_false nofun ha

end Selector

/-! ## Media queries -/

/-- A parenthesis at this position, outside all other blocks, names the mode. -/
def SchemeAt (ts : List Token) (i : Nat) (mode : String) : Prop :=
  ∃ body, TopBlock [] ts .round i body ∧ NamesScheme mode body

/-- The text goes on behind `@media`, and there the last parenthesis that names a scheme names
this one. -/
def RuleNames (rule mode : String) : Prop :=
  ∃ query, rule.toList = "@media".toList ++ query ∧ ∃ i, SchemeAt (tokens query) i mode ∧
    ∀ j other, SchemeAt (tokens query) j other → j ≤ i

theorem features_eq (cs : List Component) :
    features cs = cs.filterMap (Component.bodyOf? .round) := by
  refine List.filterMap_congr fun c _ => ?_
  rcases c with t | ⟨o, body⟩
  · rfl
  · cases o <;> rfl

theorem modeOfAtRule?_eq_some_iff {rule mode : String} :
    modeOfAtRule? rule = some mode ↔ RuleNames rule mode := by
  have hquery (query : List Char) : modeOfQuery? (String.ofList query) = some mode ↔
      ∃ i, SchemeAt (tokens query) i mode ∧
        ∀ j other, SchemeAt (tokens query) j other → j ≤ i := by
    rw [modeOfQuery?, features_eq, components, String.toList_ofList]
    exact getLast?_blocks modeOfFeature?_ofTokens
  rw [modeOfAtRule?, Option.bind_eq_some_iff]
  constructor
  · rintro ⟨query, hq, h⟩
    exact ⟨query, (List.append_eq_of_isPrefixOf?_eq_some hq).symm, (hquery query).1 h⟩
  · rintro ⟨query, hq, h⟩
    exact ⟨query, by rw [hq, isPrefixOf?_append], (hquery query).2 h⟩

/-- Unless the name after the at sign goes on, the text behind `@media` is read as in the rule. -/
theorem tokens_media {query : List Char}
    (h : ∀ c ∈ query.head?, isNameChar c = false ∧ c ≠ '\\') :
    tokens ("@media".toList ++ query) = .atKeyword "media" :: tokens query := by
  have hr : readName ("media".toList ++ query) = ("media".toList, query) :=
    readName_append (List.all_eq_true.1 rfl) h
  have ht : readToken '@' ("media".toList ++ query) = (.atKeyword "media", query) := by
    rw [readToken, atNumber_eq_false (by decide) (by decide), hr]
    exact congrArg (fun name => (Token.atKeyword name, query)) String.ofList_toList
  rw [show "@media".toList ++ query = '@' :: ("media".toList ++ query) from rfl,
    tokens_cons rfl (by decide), ht]

/-! ## Declarations -/

/-- What the selector around a declaration makes of it. -/
def Declaration.bySelector (d : Declaration) : Placement :=
  d.selector.elim .topLevel Placement.ofSelector

theorem placement_cases (d : Declaration) :
    (d.bySelector ≠ .topLevel ∧ d.placement = d.bySelector) ∨
      (d.bySelector = .topLevel ∧
        d.placement = (d.atRule.bind modeOfAtRule?).elim .topLevel .mode) := by
  unfold Declaration.placement
  rw [← Declaration.bySelector]
  cases h : d.bySelector with
  | topLevel => exact .inr ⟨rfl, rfl⟩
  | mode m => exact .inl ⟨nofun, rfl⟩
  | malformed => exact .inl ⟨nofun, rfl⟩

theorem bind_modeOfAtRule?_iff {d : Declaration} {mode : String} :
    d.atRule.bind modeOfAtRule? = some mode ↔ ∃ rule ∈ d.atRule, RuleNames rule mode := by
  rw [Option.bind_eq_some_iff]
  exact exists_congr fun rule => and_congr Iff.rfl modeOfAtRule?_eq_some_iff

theorem bind_modeOfAtRule?_eq_none_iff {d : Declaration} :
    d.atRule.bind modeOfAtRule? = none ↔ ∀ rule ∈ d.atRule, ∀ mode, ¬RuleNames rule mode := by
  rw [Option.eq_none_iff_forall_ne_some]
  constructor
  · exact fun h rule hr mode hm => h mode (bind_modeOfAtRule?_iff.2 ⟨rule, hr, hm⟩)
  · rintro h mode hm
    obtain ⟨rule, hr, hm⟩ := bind_modeOfAtRule?_iff.1 hm
    exact h rule hr mode hm

/-- **The blocks that name a mode are recognized exactly.** The first attribute that names one
decides, other attributes spoil the selector, and without attributes the last color-scheme
feature behind `@media` decides. -/
theorem placement_exact (selector : String) (d : Declaration) :
    ((∀ mode, Placement.ofSelector selector = .mode mode ↔ SelectorNames selector mode) ∧
      (Placement.ofSelector selector = .malformed ↔
        (∃ i body, TopBlock [] (tokens selector.toList) .square i body) ∧
          ∀ i mode, ¬ModeAt (tokens selector.toList) i mode) ∧
      (Placement.ofSelector selector = .topLevel ↔
        ∀ i body, ¬TopBlock [] (tokens selector.toList) .square i body)) ∧
    (∀ mode, d.placement = .mode mode ↔ d.bySelector = .mode mode ∨
      d.bySelector = .topLevel ∧ ∃ rule ∈ d.atRule, RuleNames rule mode) ∧
    (d.placement = .malformed ↔ d.bySelector = .malformed) ∧
    (d.placement = .topLevel ↔
      d.bySelector = .topLevel ∧ ∀ rule ∈ d.atRule, ∀ mode, ¬RuleNames rule mode) ∧
    ∀ query : List Char, (∀ c ∈ query.head?, isNameChar c = false ∧ c ≠ '\\') →
      tokens ("@media".toList ++ query) = .atKeyword "media" :: tokens query := by
  refine ⟨⟨fun _ => ofSelector_eq_mode_iff, ofSelector_eq_malformed_iff,
    ofSelector_eq_topLevel_iff⟩, ?_⟩
  rcases placement_cases d with ⟨hne, h⟩ | ⟨htop, h⟩
  · -- The selector has decided.
    rw [h]
    refine ⟨fun mode => ?_, Iff.rfl, ?_, fun _ => tokens_media⟩
    · simp [hne]
    · simp [hne]
  · rw [h, htop, ← bind_modeOfAtRule?_eq_none_iff]
    simp only [← bind_modeOfAtRule?_iff]
    cases d.atRule.bind modeOfAtRule? with
    | none => exact ⟨by simp, by simp, by simp, fun _ => tokens_media⟩
    | some mode => exact ⟨by simp, by simp, by simp, fun _ => tokens_media⟩

/-- A rule for what is dark, the tokens of which are those of its query behind `@media`. -/
theorem placement_exact_dark :
    (∀ c ∈ " (prefers-color-scheme: dark)".toList.head?, isNameChar c = false ∧ c ≠ '\\') ∧
      tokens ("@media".toList ++ " (prefers-color-scheme: dark)".toList) =
        .atKeyword "media" :: tokens " (prefers-color-scheme: dark)".toList ∧
      RuleNames "@media (prefers-color-scheme: dark)" darkMode := by
  let d : Declaration :=
    { name := "a", value := "red", comment := none, selector := some ":root",
      atRule := some "@media (prefers-color-scheme: dark)" }
  obtain ⟨-, hmode, -, -, htokens⟩ := placement_exact ":root" d
  have hspace : ∀ c ∈ " (prefers-color-scheme: dark)".toList.head?,
      isNameChar c = false ∧ c ≠ '\\' := by
    rintro c ⟨⟩
    decide
  refine ⟨hspace, htokens _ hspace, ?_⟩
  have hroot : d.bySelector = .topLevel := ofSelector_root
  rcases (hmode darkMode).1 (by decide +kernel) with h | ⟨-, _, ⟨⟩, h⟩
  · rw [hroot] at h
    cases h
  · exact h

end DesignVars
