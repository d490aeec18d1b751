import DesignVars.Proofs.Arguments
import DesignVars.Proofs.Css.Call
import DesignVars.Proofs.Reference

/-!
# The grammars of values

A value is classified by the first grammar that accepts it. No two accept the same text, so the
order in which they are tried does not matter.

* `Grammar`, `Grammar.accepts`, `Grammar.read?`: the grammars, and what a text means in each;
* `exists_of_readPlain?`, `exists_of_measure?`: what numbers and measures are made of, so that no
  text is both (`measure?_eq_none`);
* `oklchOfBody?_eq_none`: no body of `oklch()` is both of an expression and of a literal;
* `Grammar.exists_lead`: the first token tells the grammars apart, except numbers from measures and
  expressions from literals;
* **`grammars_disjoint`**: at most one grammar accepts a text, and any order classifies alike.
-/

namespace DesignVars

open Text Css Decimal

/-! ## Grammars -/

/-- The forms of a value, colors in notations other than `oklch()` and `oklab()` aside. -/
inductive Grammar where
  | reference
  | number
  | measure
  | lightDark
  | expression
  | native
deriving DecidableEq, Repr

/-- Holds when a text begins like a literal of `oklch()` or `oklab()`. -/
def startsNative (text : String) : Bool :=
  let start := lower (trim text.toList)
  "oklch(".toList.isPrefixOf start || "oklab(".toList.isPrefixOf start

/-- The color of a literal of `oklch()` or `oklab()`. -/
def nativeColor? (text : String) : Option Rgba :=
  if startsNative text then readColor? text else none

namespace Grammar

/-- The grammars in the order in which they are tried. -/
def all : List Grammar := [.reference, .number, .measure, .lightDark, .expression, .native]

/-- Holds when a text is of that form. -/
def accepts (text : String) : Grammar → Bool
  | .reference => (aliasOf? text).isSome
  | .number => (plainNumber? text).isSome
  | .measure => (measure? text).isSome
  | .lightDark => (lightDark? text).isSome
  | .expression => (Expression.parse? text).isSome
  | .native => (nativeColor? text).isSome

/-- What a text of that form means, which may be nothing; a text of another form is not read. -/
def read? (lookup : Lookup) (text : String) : Grammar → Option (Option Classified)
  | .reference => (aliasOf? text).map fun target => some (.single (.alias target))
  | .number => (plainNumber? text).map fun x => some (.single (.concrete (.number x)))
  | .measure => (measure? text).map fun x => some (.single (.concrete (.number x)))
  | .lightDark => (lightDark? text).map fun (light, dark) => do
    some (.dual (← classifyColor lookup light) (← classifyColor lookup dark))
  | .expression => (Expression.parse? text).map fun e =>
    (e.evaluate? lookup).map fun c => .single (.concrete (.color c))
  | .native => (nativeColor? text).map fun c => some (.single (.concrete (.color c.clamp)))

/-- What the first token of such a text can tell. -/
def leads : Grammar → List (List Char)
  | .reference => ["var".toList]
  | .number | .measure => [[]]
  | .lightDark => ["light-dark".toList]
  | .expression => ["oklch".toList]
  | .native => ["oklch".toList, "oklab".toList]

theorem mem_all (g : Grammar) : g ∈ all := by cases g <;> decide

theorem isSome_read? (lookup : Lookup) (text : String) (g : Grammar) :
    (g.read? lookup text).isSome = g.accepts text := by
  cases g <;> exact Option.isSome_map

end Grammar

/-- Values are classified by the first grammar that accepts the text, and as colors in other
notations if none does. -/
theorem classify_eq (lookup : Lookup) (text : String) : classify lookup text =
    ((Grammar.all.findSome? (Grammar.read? lookup (trimmed text))).getD
      ((colorLiteral? (trimmed text)).map .single)) := by
  rw [classify]
  generalize trimmed text = text
  simp only [Grammar.all, List.findSome?_cons, Grammar.read?, List.findSome?_nil, classifyColor]
  cases aliasOf? text with
  | some target => rfl
  | none =>
  cases plainNumber? text with
  | some x => rfl
  | none =>
  cases measure? text with
  | some x => rfl
  | none =>
  cases lightDark? text with
  | some arguments => rfl
  | none =>
  cases Expression.parse? text with
  | some e => exact Option.map_map ..
  | none =>
  cases hn : nativeColor? text with
  | none => rfl
  | some c =>
    rw [colorLiteral?, (Option.ite_none_right_eq_some.1 hn).2]
    rfl

/-! ## Numbers and measures -/

theorem exists_takeSign (cs : List Char) :
    ∃ sign ∈ [[], ['+'], ['-']], cs = sign ++ (takeSign cs).2 := by
  fun_cases takeSign cs with
  | case1 cs => exact ⟨['-'], by decide, rfl⟩
  | case2 cs => exact ⟨['+'], by decide, rfl⟩
  | case3 => exact ⟨[], by decide, rfl⟩

/-- A plain number is an optional sign, then digits and points, with a digit first or second. -/
theorem exists_of_readPlain? {cs : List Char} {n : Numeral} (h : readPlain? cs = some n) :
    ∃ sign ∈ [[], ['+'], ['-']], ∃ body, cs = sign ++ body ∧
      (∀ c ∈ body, isDigit c = true ∨ c = '.') ∧
      ∃ d r, isDigit d = true ∧ (body = d :: r ∨ body = '.' :: d :: r) := by
  obtain ⟨sign, hs, he⟩ := exists_takeSign cs
  rw [readPlain?] at h
  generalize takeSign cs = signed at h he
  obtain ⟨negative, body⟩ := signed
  simp only at h
  refine ⟨sign, hs, body, he, ?_⟩
  have hbody : (takeDigits body).1 ++ (takeDigits body).2 = body :=
    List.takeWhile_append_dropWhile
  have hwhole : ∀ c ∈ (takeDigits body).1, isDigit c = true := fun c hc =>
    List.mem_takeWhile_imp hc
  generalize takeDigits body = parts at h hbody hwhole
  obtain ⟨whole, rest⟩ := parts
  subst hbody
  simp only at h
  split at h
  · obtain ⟨hne, -⟩ := Option.ite_none_left_eq_some.1 h
    cases whole with
    | nil => cases hne rfl
    | cons d w =>
      rw [List.append_nil]
      exact ⟨fun c hc => .inl (hwhole c hc), d, w, hwhole d List.mem_cons_self, .inl rfl⟩
  · rename_i fraction
    obtain ⟨hne, -⟩ := Option.ite_none_left_eq_some.1 h
    simp only [Bool.or_eq_true, not_or, List.isEmpty_iff, Bool.not_eq_true, Bool.not_eq_false',
      List.all_eq_true] at hne
    obtain ⟨hne, hfraction⟩ := hne
    obtain ⟨d, r, rfl⟩ := List.exists_cons_of_ne_nil hne
    refine ⟨fun c hc => ?_, ?_⟩
    · rcases List.mem_append.1 hc with hc | hc
      · exact .inl (hwhole c hc)
      · rcases List.mem_cons.1 hc with hc | hc
        · exact .inr hc
        · exact .inl (hfraction c hc)
    · cases whole with
      | nil => exact ⟨d, r, hfraction d List.mem_cons_self, .inr rfl⟩
      | cons e w => exact ⟨e, _, hwhole e List.mem_cons_self, .inl rfl⟩
  · cases h

theorem atNumber_of_readPlain? {cs : List Char} {n : Numeral} (h : readPlain? cs = some n) :
    atNumber cs = true := by
  obtain ⟨sign, hs, body, rfl, -, d, r, hd, hbody⟩ := exists_of_readPlain? h
  simp only [List.mem_cons, List.not_mem_nil, or_false] at hs
  rcases hs with rfl | rfl | rfl <;> rcases hbody with rfl | rfl <;>
    rcases r with _ | ⟨e, _ | ⟨f, r⟩⟩ <;> simp [atNumber, hd]

theorem isUnitLetter_eq_false {cs : List Char} {n : Numeral} (h : readPlain? cs = some n) :
    ∀ c ∈ cs, isUnitLetter c = false := by
  obtain ⟨sign, hs, body, rfl, hbody, -⟩ := exists_of_readPlain? h
  have hdigit {c : Char} (hc : isDigit c = true) : isUnitLetter c = false := by
    by_contra hu
    rw [Bool.not_eq_false, isUnitLetter, Bool.or_eq_true, beq_iff_eq] at hu
    rcases hu with hl | rfl
    · rw [(letter_spec hl).1] at hc
      cases hc
    · cases hc
  intro c hc
  rcases List.mem_append.1 hc with hc | hc
  · simp only [List.mem_cons, List.not_mem_nil, or_false] at hs
    rcases hs with rfl | rfl | rfl
    · cases hc
    · rw [List.mem_singleton.1 hc]
      rfl
    · rw [List.mem_singleton.1 hc]
      rfl
  · rcases hbody c hc with hc | rfl
    · exact hdigit hc
    · rfl

/-- A measure is a plain number and a unit of one letter or more. -/
theorem exists_of_measure? {text : String} {x : Float} (h : measure? text = some x) :
    ∃ number unit n, text.toList = number ++ unit ∧ readPlain? number = some n ∧
      ∃ c ∈ unit, isUnitLetter c = true := by
  simp only [measure?] at h
  obtain ⟨hunit, h⟩ := Option.ite_none_left_eq_some.1 h
  obtain ⟨n, hn, -⟩ := Option.map_eq_some_iff.1 h
  refine ⟨_, (text.toList.reverse.takeWhile isUnitLetter).reverse, n, ?_, hn, ?_⟩
  · rw [← List.reverse_append, List.takeWhile_append_dropWhile, List.reverse_reverse]
  · rw [List.isEmpty_iff] at hunit
    obtain ⟨c, hc⟩ := List.exists_mem_of_ne_nil _ hunit
    exact ⟨c, hc, List.mem_takeWhile_imp (List.mem_reverse.1 hc)⟩

theorem measure?_eq_none {text : String} (h : (plainNumber? text).isSome = true) :
    measure? text = none := by
  rw [plainNumber?, Option.isSome_map] at h
  obtain ⟨n, hn⟩ := Option.isSome_iff_exists.1 h
  refine Option.eq_none_iff_forall_ne_some.2 fun x hx => ?_
  obtain ⟨number, unit, -, he, -, c, hc, hu⟩ := exists_of_measure? hx
  rw [isUnitLetter_eq_false hn c (he ▸ List.mem_append_right number hc)] at hu
  cases hu

/-! ## Expressions and literals -/

theorem base?_of_lightness? {l : Component} {x : Float} (h : lightness? l = some x)
    (rest : List Component) : base? (l :: rest) = some (none, l :: rest) := by
  cases l with
  | block o body => cases h
  | token t =>
    cases t with
    | number | percentage => rfl
    | _ => cases h

theorem isReference_eq_false {h : Component} {x : Float} {o : Operand} (hx : hue? h = some x)
    (ho : operand? h = some o) : o.isReference = false := by
  cases h with
  | block _ body => cases hx
  | token t =>
    cases t with
    | number y s =>
      cases ho
      rfl
    | dimension y s unit =>
      obtain ⟨-, ⟨⟩⟩ := Option.ite_none_right_eq_some.1 ho
      rfl
    | _ => cases hx

/-- A body that refers to a variable does not list the channels of a literal. -/
theorem oklchOfBody?_eq_none {body : List Component} {e : Expression}
    (he : Expression.ofBody? body = some e)
    (hrefers : (e.isRelative || e.isHueIndirection) = true) : oklchOfBody? body = none := by
  refine Option.eq_none_iff_forall_ne_some.2 fun channels hc => ?_
  rcases body with _ | ⟨l, _ | ⟨c, _ | ⟨h, rest⟩⟩⟩
  · cases hc
  · cases hc
  · cases hc
  · simp only [oklchOfBody?, Option.bind_eq_bind, Option.bind_eq_some_iff] at hc
    obtain ⟨x, hl, -, -, y, hh, -⟩ := hc
    rw [Expression.ofBody?, base?_of_lightness? hl] at he
    simp only [Option.bind_eq_bind, Option.bind_eq_some_iff] at he
    obtain ⟨_, -, _, -, hue, hhue, _, -, he⟩ := he
    obtain rfl := Option.some.inj he
    simp [Expression.isRelative, Expression.isHueIndirection, isReference_eq_false hh hhue]
      at hrefers

theorem exists_of_parse? {text : String} {e : Expression} (h : Expression.parse? text = some e) :
    ∃ body, callBody? "oklch" (trimmed text) = some body ∧ oklchOfBody? body = none := by
  obtain ⟨he, hrefers⟩ := Option.filter_eq_some_iff.1 h
  obtain ⟨body, hbody, he⟩ := Option.bind_eq_some_iff.1 he
  exact ⟨body, hbody, oklchOfBody?_eq_none he hrefers⟩

/-! ## First tokens -/

theorem lead?_reference (name : String) : lead? (reference name).toList = some "var".toList := by
  refine lead?_of_prefix ?_ (by decide) (by decide) (by decide)
  rw [toList_reference, lower, List.map_append, List.map_append]
  exact ⟨_, rfl⟩

theorem lead?_lightDark {text light dark : String} (h : LightDarkText text light dark) :
    lead? text.toList = some "light-dark".toList := by
  obtain ⟨head, body, -, -, he, hhead, -⟩ := h
  refine lead?_of_prefix ?_ (by decide) (by decide) (by decide)
  rw [he, lower, List.map_append]
  exact ⟨_, congrArg (· ++ _) hhead.symm⟩

theorem lead?_measure {text : String} {x : Float} (h : measure? text = some x) :
    lead? text.toList = some [] := by
  obtain ⟨number, unit, n, he, hn, -⟩ := exists_of_measure? h
  rw [he]
  exact lead?_number (atNumber_append (atNumber_of_readPlain? hn) unit)

theorem lead?_of_callBody? {name text : String} {body : List Component}
    (h : callBody? name text = some body) : lead? text.toList = some (lower name.toList) := by
  rw [callBody?] at h
  split at h
  · rename_i f b hc
    obtain ⟨hf, -⟩ := Option.ite_none_right_eq_some.1 h
    rw [lead?_block hc]
    exact congrArg some (eq_of_beq hf)
  · cases h

theorem trimmed_trimmed (text : String) : trimmed (trimmed text) = trimmed text := by
  refine congrArg String.ofList ?_
  rw [trimmed, String.toList_ofList, trim_trim]

section Trimmed

variable {text : String} (ht : trimmed text = text)

include ht

theorem trim_toList : trim text.toList = text.toList := by
  rw [← ht, trimmed, String.toList_ofList, trim_trim]

theorem lead?_native (h : startsNative text = true) :
    ∃ name ∈ ["oklch".toList, "oklab".toList], lead? text.toList = some name := by
  rw [startsNative, trim_toList ht, Bool.or_eq_true, List.isPrefixOf_iff_prefix,
    List.isPrefixOf_iff_prefix] at h
  rcases h with h | h
  · exact ⟨_, List.mem_cons_self, lead?_of_prefix h (by decide) (by decide) (by decide)⟩
  · exact ⟨_, .tail _ List.mem_cons_self, lead?_of_prefix h (by decide) (by decide) (by decide)⟩

theorem Grammar.exists_lead {g : Grammar} (h : g.accepts text = true) :
    ∃ name ∈ g.leads, lead? text.toList = some name := by
  cases g with
  | reference =>
    obtain ⟨name, hn⟩ := Option.isSome_iff_exists.1 h
    obtain ⟨rfl, -⟩ := aliasOf?_eq_some_iff.1 hn
    exact ⟨_, List.mem_cons_self, lead?_reference name⟩
  | number =>
    obtain ⟨x, hx⟩ := Option.isSome_iff_exists.1 h
    obtain ⟨n, hn, -⟩ := Option.map_eq_some_iff.1 hx
    exact ⟨_, List.mem_cons_self, lead?_number (atNumber_of_readPlain? hn)⟩
  | measure =>
    obtain ⟨x, hx⟩ := Option.isSome_iff_exists.1 h
    exact ⟨_, List.mem_cons_self, lead?_measure hx⟩
  | lightDark =>
    obtain ⟨arguments, ha⟩ := Option.isSome_iff_exists.1 h
    exact ⟨_, List.mem_cons_self, lead?_lightDark (lightDark?_eq_some_iff.1 ha)⟩
  | expression =>
    obtain ⟨e, he⟩ := Option.isSome_iff_exists.1 h
    obtain ⟨body, hbody, -⟩ := exists_of_parse? he
    rw [ht] at hbody
    exact ⟨_, List.mem_cons_self, lead?_of_callBody? hbody⟩
  | native =>
    obtain ⟨c, hc⟩ := Option.isSome_iff_exists.1 h
    exact lead?_native ht (Option.ite_none_right_eq_some.1 hc).1

theorem nativeColor?_eq_none (h : (Expression.parse? text).isSome = true) :
    nativeColor? text = none := by
  obtain ⟨e, he⟩ := Option.isSome_iff_exists.1 h
  obtain ⟨body, hbody, hnone⟩ := exists_of_parse? he
  refine Option.eq_none_iff_forall_ne_some.2 fun c hc => ?_
  obtain ⟨hs, hc⟩ := Option.ite_none_right_eq_some.1 hc
  rw [startsNative, Bool.or_eq_true] at hs
  rcases hs with hs | hs
  · rw [readColor?, if_pos hs, oklchLiteral?, ← trimmed, hbody, Option.bind_some, hnone] at hc
    cases hc
  · rw [trim_toList ht] at hs
    rw [ht] at hbody
    have hlead : lead? text.toList = some "oklab".toList :=
      lead?_of_prefix (List.isPrefixOf_iff_prefix.1 hs) (by decide) (by decide) (by decide)
    rw [lead?_of_callBody? hbody] at hlead
    exact absurd (Option.some.inj hlead) (by decide)

end Trimmed

/-! ## Disjointness -/

namespace Grammar

theorem eq_or_mem_of_mem_leads {g h : Grammar} {name : List Char} (hg : name ∈ g.leads)
    (hh : name ∈ h.leads) : g = h ∨ (g, h) ∈ [(number, measure), (measure, number),
      (expression, native), (native, expression)] := by
  have hall : ∀ n ∈ g.leads, n ∈ h.leads → g = h ∨ (g, h) ∈ [(number, measure),
      (measure, number), (expression, native), (native, expression)] := by
    cases g <;> cases h <;> decide
  exact hall name hg hh

/-- At most one grammar accepts a text. -/
theorem eq_of_accepts {text : String} (ht : trimmed text = text) {g h : Grammar}
    (hg : g.accepts text = true) (hh : h.accepts text = true) : g = h := by
  obtain ⟨name, hname, hlead⟩ := exists_lead ht hg
  obtain ⟨name', hname', hlead'⟩ := exists_lead ht hh
  obtain rfl := Option.some.inj (hlead.symm.trans hlead')
  have hmeasure (hn : accepts text number = true) (hm : accepts text measure = true) : False := by
    rw [accepts, measure?_eq_none hn] at hm
    cases hm
  have hnative (he : accepts text expression = true) (hn : accepts text native = true) : False := by
    rw [accepts, nativeColor?_eq_none ht he] at hn
    cases hn
  rcases eq_or_mem_of_mem_leads hname hname' with heq | hpair
  · exact heq
  · simp only [List.mem_cons, Prod.mk.injEq, List.not_mem_nil, or_false] at hpair
    rcases hpair with ⟨rfl, rfl⟩ | ⟨rfl, rfl⟩ | ⟨rfl, rfl⟩ | ⟨rfl, rfl⟩
    · exact (hmeasure hg hh).elim
    · exact (hmeasure hh hg).elim
    · exact (hnative hg hh).elim
    · exact (hnative hh hg).elim

end Grammar

/-- **No two grammars accept the same text, and in which order they are tried does not matter.** -/
theorem grammars_disjoint :
    (∀ (text : String) (g h : Grammar), g.accepts (trimmed text) = true →
      h.accepts (trimmed text) = true → g = h) ∧
    ∀ order : List Grammar, (∀ g, g ∈ order) → ∀ (lookup : Lookup) (text : String),
      classify lookup text = ((order.findSome? (Grammar.read? lookup (trimmed text))).getD
        ((colorLiteral? (trimmed text)).map .single)) := by
  have hunique (text : String) (g h : Grammar) (hg : g.accepts (trimmed text) = true)
      (hh : h.accepts (trimmed text) = true) : g = h :=
    Grammar.eq_of_accepts (trimmed_trimmed text) hg hh
  refine ⟨hunique, fun order horder lookup text => ?_⟩
  have hfound {l : List Grammar} (hl : ∀ g, g ∈ l) {c : Option Classified} :
      l.findSome? (Grammar.read? lookup (trimmed text)) = some c ↔
        ∃ g, Grammar.read? lookup (trimmed text) g = some c := by
    rw [findSome?_eq_some_iff_of_unique]
    · simp only [hl, true_and]
    · simp only [Grammar.isSome_read?]
      exact hunique text
  have horders : Grammar.all.findSome? (Grammar.read? lookup (trimmed text)) =
      order.findSome? (Grammar.read? lookup (trimmed text)) :=
    Option.ext fun c => (hfound Grammar.mem_all).trans (hfound horder).symm
  rw [classify_eq, horders]

theorem grammars_disjoint_hue :
    Grammar.accepts (trimmed " oklch(0.5 0.1 var(--hue)) ") .expression = true ∧
    (∀ g : Grammar, g.accepts (trimmed " oklch(0.5 0.1 var(--hue)) ") = true → .expression = g) ∧
    (∀ g, g ∈ Grammar.all.reverse) ∧
    ∀ lookup : Lookup, classify lookup " oklch(0.5 0.1 var(--hue)) " =
      ((Grammar.all.reverse.findSome?
        (Grammar.read? lookup (trimmed " oklch(0.5 0.1 var(--hue)) "))).getD
        ((colorLiteral? (trimmed " oklch(0.5 0.1 var(--hue)) ")).map .single)) := by
  have he : Grammar.accepts (trimmed " oklch(0.5 0.1 var(--hue)) ") .expression = true := by
    decide +kernel
  have hall : ∀ g, g ∈ Grammar.all.reverse := fun g => List.mem_reverse.2 g.mem_all
  exact ⟨he, fun g hg => grammars_disjoint.1 _ _ g he hg, hall,
    fun lookup => grammars_disjoint.2 _ hall lookup _⟩

end DesignVars
