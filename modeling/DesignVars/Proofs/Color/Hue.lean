import DesignVars.Color.Expression
import DesignVars.Proofs.Color.Zero
import DesignVars.Proofs.Css.Component

/-!
# Indirect hues

An `oklch()` function may take its hue from a variable, and a literal may write the same hue as a
number. The two are read by different functions.

* `oklchCall`, `IndirectHue`, `PlainHue`: the two texts, token by token;
* `Operand.Reads`, `OpacityReads`: what an operand and a literal make of the same tokens;
* `channels?_indirect`: an indirect hue gives the channels of the literal, except that its chroma is
  at least zero;
* **`evaluate?_indirect`**: so the colors are equal after clamping if the chroma is not negative;
* **`not_forall_channels?_indirect`**: and the channels differ if it is.
-/

namespace DesignVars

open Text Css

/-! ## The two texts -/

/-- A finite number or a finite percentage. -/
def isFiniteAmount (t : Token) : Bool := (lightness? (.token t)).any Float.isFinite

/-- The opacity behind the channels, if there is one. -/
def opacityPart : Option Token → List Component
  | none => []
  | some a => [.token (.delim '/'), .token a]

/-- `oklch()` with one token for each channel but the hue. -/
def oklchCall (f : String) (l c : Token) (hue : Component) (a : Option Token) : Component :=
  .block (.function f) (.token l :: .token c :: hue :: opacityPart a)

/-- The text is such a call with `var()` for its hue, of a variable that is the number `n`. -/
def IndirectHue (lookup : Lookup) (text : String) (l c : Token) (n : Float) (a : Option Token) :
    Prop :=
  ∃ f g name : String, sameLetters f "oklch" = true ∧ sameLetters g "var" = true ∧
    isValidName name = true ∧ lookup.number? name = some n ∧
    tokens (trim text.toList) =
      (oklchCall f l c (.block (.function g) [.token (.ident ("--" ++ name))]) a).tokens

/-- The text is such a call that writes the number `n` for its hue, in degrees. -/
def PlainHue (text : String) (l c : Token) (n : Float) (a : Option Token) : Prop :=
  ∃ (f : String) (h : Token), sameLetters f "oklch" = true ∧ hue? (.token h) = some n ∧
    "oklch(".toList.isPrefixOf (lower (trim text.toList)) = true ∧
    tokens (trim text.toList) = (oklchCall f l c (.token h) a).tokens

theorem callBody?_of_tokens {text f name : String} {body : List Component}
    (hf : sameLetters f name = true) (hb : areProper body = true)
    (h : tokens (trim text.toList) = (Component.block (.function f) body).tokens) :
    callBody? name (trimmed text) = some body := by
  have hc : components (trimmed text) = [.block (.function f) body] := by
    have hts : tokens (trimmed text).toList = tokensOf [.block (.function f) body] := by
      rw [trimmed, String.toList_ofList, h, tokensOf, tokensOf, List.append_nil]
    rw [components, hts, ofTokens_tokensOf]
    simp [areProper, Component.isProper, hb]
  rw [callBody?, hc]
  exact if_pos hf

/-! ## Operands -/

theorem token_of_lightness? {t : Token} {x : Float} (h : lightness? (.token t) = some x) :
    ∃ s, t = .number x s ∨ t = .percentage x s := by
  cases t with
  | number y s =>
    cases h
    exact ⟨s, .inl rfl⟩
  | percentage y s =>
    cases h
    exact ⟨s, .inr rfl⟩
  | _ => cases h

theorem finite?_of_isFinite {x : Float} (h : x.isFinite = true) : finite? x = some x := if_pos h

/-- A literal and an operand make `x` of a token, and `y` of it as a chroma. -/
structure Operand.Reads (o : Operand) (t : Token) (x y : Float) : Prop where
  isProper : (Component.token t).isProper = true
  isFinite : x.isFinite = true
  isFinite_chroma : y.isFinite = true
  lightness? : lightness? (.token t) = some x
  chroma? : chroma? (.token t) = some y
  base? : ∀ cs, base? (.token t :: cs) = some (none, .token t :: cs)
  operand? : operand? (.token t) = some o
  isLiteral : o.isLiteral = true
  evaluate_lightness : ∀ lookup base, o.evaluate? lookup base .lightness = some x
  evaluate_chroma : ∀ lookup base, o.evaluate? lookup base .chroma = some y
  evaluate_opacity : ∀ lookup base, o.evaluate? lookup base .opacity = some x

theorem exists_reads {t : Token} (h : isFiniteAmount t = true) :
    ∃ o x y, Operand.Reads o t x y := by
  obtain ⟨x, hx, hfin⟩ := (Option.any_eq_true _ _).1 h
  have hf := finite?_of_isFinite hfin
  obtain ⟨s, rfl | rfl⟩ := token_of_lightness? hx
  · exact ⟨.number x, x, x, rfl, hfin, hfin, rfl, rfl, fun _ => rfl, rfl, rfl, fun _ _ => hf,
      fun _ _ => hf, fun _ _ => hf⟩
  · have hfin' := isFinite_mul_chromaReference hfin
    have hf' := finite?_of_isFinite hfin'
    exact ⟨.percentage x, x, _, rfl, hfin, hfin', rfl, rfl, fun _ => rfl, rfl, rfl, fun _ _ => hf,
      fun _ _ => hf', fun _ _ => hf⟩

/-- A literal and an expression make `x` of what stands behind the channels. -/
structure OpacityReads (o : Option Operand) (a : Option Token) (x : Float) : Prop where
  areProper : areProper (opacityPart a) = true
  opacity? : opacity? (opacityPart a) = some x
  operand? : opacityOperand? (opacityPart a) = some o
  evaluate : ∀ lookup (e : Expression), e.opacity = o → e.evaluateOpacity? lookup none = some x

theorem exists_opacityReads {a : Option Token} (h : a.all isFiniteAmount = true) :
    ∃ o x, OpacityReads o a x := by
  cases a with
  | none =>
    refine ⟨none, 1.0, rfl, rfl, rfl, fun lookup e he => ?_⟩
    rw [Expression.evaluateOpacity?, he]
    rfl
  | some a =>
    obtain ⟨o, x, y, hr⟩ := exists_reads (t := a) h
    refine ⟨some o, x, ?_, hr.lightness?, ?_, fun lookup e he => ?_⟩
    · rw [opacityPart, areProper, areProper, hr.isProper]
      rfl
    · show (operand? (.token a)).map some = some (some o)
      rw [hr.operand?]
      rfl
    · rw [Expression.evaluateOpacity?, he]
      exact hr.evaluate_opacity lookup none

theorem operand?_reference {g name : String} (hg : sameLetters g "var" = true)
    (hname : isValidName name = true) :
    operand? (.block (.function g) [.token (.ident ("--" ++ name))]) = some (.reference name) := by
  have hcalc : sameLetters g "calc" = false := by
    rw [sameLetters, beq_iff_eq] at hg
    rw [sameLetters, hg]
    decide
  have hafter : ['-', '-'].isPrefixOf? ("--" ++ name).toList = some name.toList := by
    rw [String.toList_append]
    exact isPrefixOf?_append ['-', '-'] name.toList
  have hbody : referenceOfBody? [.token (.ident ("--" ++ name))] = some name := by
    rw [referenceOfBody?, hafter, Option.bind_some, String.ofList_toList]
    exact if_pos hname
  rw [operand?, hcalc, if_neg Bool.false_ne_true, simpleOperand?, reference?, if_pos hg, hbody]
  · rfl
  all_goals nofun

/-! ## Both texts -/

/-- The channels and the opacity that an `oklch()` literal lists. -/
def literalChannels? (text : String) : Option (Channels × Float) :=
  (callBody? "oklch" (trimmed text)).bind oklchOfBody?

theorem readColor?_of_literalChannels? {text : String}
    (ht : "oklch(".toList.isPrefixOf (lower (trim text.toList)) = true) :
    readColor? text = (literalChannels? text).map fun (c, a) => Rgba.ofModel .oklch c a := by
  rw [readColor?, if_pos ht]
  rfl

/-- No negative chroma. -/
def Channels.clampChroma (c : Channels) : Channels :=
  { c with y := if 0.0 < c.y then c.y else 0.0 }

theorem clampChroma_beq_iff {c : Channels} (hc : areFinite [c.x, c.y, c.z] = true) :
    (c.clampChroma == c) = true ↔ 0.0 ≤ c.y := by
  simp only [areFinite, List.all_cons, List.all_nil, Bool.and_eq_true] at hc
  obtain ⟨hx, hy, hz, -⟩ := hc
  show (c.x == c.x && ((if 0.0 < c.y then c.y else 0.0) == c.y && c.z == c.z)) = true ↔ _
  rw [(SameNumber.refl c.x).beq hx, (SameNumber.refl c.z).beq hz, Bool.true_and, Bool.and_true]
  exact atLeastZero_beq_iff hy

section Texts

variable {lookup : Lookup} {indirect literal : String} {l c : Token} {n : Float} {a : Option Token}

section Reads

variable {ol oc : Operand} {oa : Option Operand} {xl yl xc yc xa : Float} (hl : ol.Reads l xl yl)
  (hc : oc.Reads c xc yc) (ha : OpacityReads oa a xa)

include hl hc ha

theorem areProper_parts {hue : Component} (hh : hue.isProper = true) :
    areProper (.token l :: .token c :: hue :: opacityPart a) = true := by
  rw [areProper, areProper, areProper, hl.isProper, hc.isProper, hh, ha.areProper]
  rfl

theorem parse?_indirect (hi : IndirectHue lookup indirect l c n a) :
    ∃ name, lookup.number? name = some n ∧
      Expression.parse? indirect = some ⟨none, ol, oc, .reference name, oa⟩ := by
  obtain ⟨f, g, name, hf, hg, hname, hnumber, ht⟩ := hi
  refine ⟨name, hnumber, ?_⟩
  have hbody := callBody?_of_tokens hf (areProper_parts hl hc ha rfl) ht
  rw [Expression.parse?, hbody, Option.bind_some, Expression.ofBody?, hl.base?]
  simp only [hl.operand?, hc.operand?, operand?_reference hg hname, ha.operand?,
    Option.bind_eq_bind, Option.bind_some]
  simp [Option.filter, Expression.isRelative, Expression.isHueIndirection, hl.isLiteral,
    hc.isLiteral, Operand.isReference]

theorem literalChannels?_plain (hp : PlainHue literal l c n a) :
    literalChannels? literal = some (⟨xl, yc, n⟩, xa) := by
  obtain ⟨f, h, hf, hhue, -, ht⟩ := hp
  have hproper : (Component.token h).isProper = true := by
    cases h with
    | number | dimension => rfl
    | _ => cases hhue
  have hbody := callBody?_of_tokens hf (areProper_parts hl hc ha hproper) ht
  rw [literalChannels?, hbody, Option.bind_some, oklchOfBody?, hl.lightness?, hc.chroma?, hhue,
    ha.opacity?]
  rfl

theorem channels?_reference {name : String} (hn : n.isFinite = true)
    (hname : lookup.number? name = some n) :
    Expression.channels? lookup ⟨none, ol, oc, .reference name, oa⟩ =
      some (Channels.clampChroma ⟨xl, yc, n⟩, xa) := by
  have hvalue : (Operand.reference name).evaluate? lookup none .hue = some n := by
    rw [Operand.evaluate?, hname, Option.bind_some]
    exact finite?_of_isFinite hn
  simp only [Expression.channels?, Expression.evaluateBase?, Option.bind_eq_bind,
    Option.bind_some, hl.evaluate_lightness, hc.evaluate_chroma, hvalue, ha.evaluate]
  rfl

end Reads

/-- **An indirect hue gives the channels of the literal**, with a chroma that is at least zero. -/
theorem channels?_indirect (hl : isFiniteAmount l = true) (hc : isFiniteAmount c = true)
    (hn : n.isFinite = true) (ha : a.all isFiniteAmount = true)
    (hi : IndirectHue lookup indirect l c n a) (hp : PlainHue literal l c n a) :
    ∃ e x y o, lightness? (.token l) = some x ∧ chroma? (.token c) = some y ∧
      areFinite [x, y, n] = true ∧ Expression.parse? indirect = some e ∧
      literalChannels? literal = some (⟨x, y, n⟩, o) ∧
      e.channels? lookup = some (Channels.clampChroma ⟨x, y, n⟩, o) := by
  obtain ⟨ol, xl, yl, hl⟩ := exists_reads hl
  obtain ⟨oc, xc, yc, hc⟩ := exists_reads hc
  obtain ⟨oa, o, ha⟩ := exists_opacityReads ha
  obtain ⟨name, hname, hparse⟩ := parse?_indirect hl hc ha hi
  have hfin : areFinite [xl, yc, n] = true := by
    simp [areFinite, hl.isFinite, hc.isFinite_chroma, hn]
  exact ⟨_, xl, yc, o, hl.lightness?, hc.chroma?, hfin, hparse, literalChannels?_plain hl hc ha hp,
    channels?_reference hl hc ha hn hname⟩

/-- **An indirect hue gives the color of the literal if the chroma is not negative.** All channels
but a negative chroma are the same in any case. -/
theorem evaluate?_indirect (hl : isFiniteAmount l = true) (hc : isFiniteAmount c = true)
    (hn : n.isFinite = true) (ha : a.all isFiniteAmount = true)
    (hi : IndirectHue lookup indirect l c n a) (hp : PlainHue literal l c n a) :
    ∃ e x y o color, lightness? (.token l) = some x ∧ chroma? (.token c) = some y ∧
      Expression.parse? indirect = some e ∧ literalChannels? literal = some (⟨x, y, n⟩, o) ∧
      readColor? literal = some (Rgba.ofModel .oklch ⟨x, y, n⟩ o) ∧
      e.channels? lookup = some (Channels.clampChroma ⟨x, y, n⟩, o) ∧
      e.evaluate? lookup = some color ∧
      ((Channels.clampChroma ⟨x, y, n⟩ == ⟨x, y, n⟩) = true ↔ 0.0 ≤ y) ∧
      (0.0 ≤ y → (color == (Rgba.ofModel .oklch ⟨x, y, n⟩ o).clamp) = true) := by
  obtain ⟨e, x, y, o, hx, hy, hfin, he, hlit, hch⟩ := channels?_indirect hl hc hn ha hi hp
  obtain ⟨f, h, -, -, hstart, -⟩ := hp
  have hread : readColor? literal = some (Rgba.ofModel .oklch ⟨x, y, n⟩ o) := by
    rw [readColor?_of_literalChannels? hstart, hlit]
    rfl
  have hcolor : e.evaluate? lookup =
      some (Rgba.ofModel .oklch (Channels.clampChroma ⟨x, y, n⟩) o).clamp := by
    rw [Expression.evaluate?, hch]
    rfl
  refine ⟨e, x, y, o, _, hx, hy, he, hlit, hread, hch, hcolor, clampChroma_beq_iff hfin,
    fun h0 => ?_⟩
  have hs : (Channels.clampChroma ⟨x, y, n⟩).Same ⟨x, y, n⟩ :=
    ⟨.refl x, sameNumber_atLeastZero h0, .refl n⟩
  exact clamp_ofModel_beq hs rfl o

end Texts

/-- One variable, a hue. -/
def hueLookup : Lookup := fun name => if name = "hue" then some (.number 30.0) else none

theorem evaluate?_indirect_number :
    IndirectHue hueLookup "oklch(50% 0.125 var(--hue) / 0.5)" (.percentage 0.5 false)
      (.number 0.125 false) 30.0 (some (.number 0.5 false)) ∧
    PlainHue "oklch(50% 0.125 30deg / 0.5)" (.percentage 0.5 false) (.number 0.125 false) 30.0
      (some (.number 0.5 false)) ∧
    ∃ e o color, Expression.parse? "oklch(50% 0.125 var(--hue) / 0.5)" = some e ∧
      e.channels? hueLookup = some (⟨0.5, 0.125, 30.0⟩, o) ∧
      e.evaluate? hueLookup = some color ∧
      literalChannels? "oklch(50% 0.125 30deg / 0.5)" = some (⟨0.5, 0.125, 30.0⟩, o) ∧
      readColor? "oklch(50% 0.125 30deg / 0.5)" =
        some (Rgba.ofModel .oklch ⟨0.5, 0.125, 30.0⟩ o) ∧
      (color == (Rgba.ofModel .oklch ⟨0.5, 0.125, 30.0⟩ o).clamp) = true := by
  have hi : IndirectHue hueLookup "oklch(50% 0.125 var(--hue) / 0.5)" (.percentage 0.5 false)
      (.number 0.125 false) 30.0 (some (.number 0.5 false)) :=
    ⟨"oklch", "var", "hue", by decide, by decide, by decide +kernel, rfl, by decide +kernel⟩
  have hp : PlainHue "oklch(50% 0.125 30deg / 0.5)" (.percentage 0.5 false) (.number 0.125 false)
      30.0 (some (.number 0.5 false)) :=
    ⟨"oklch", .dimension 30.0 false "deg", by decide, by decide +kernel, by decide +kernel,
      by decide +kernel⟩
  obtain ⟨e, x, y, o, color, hx, hy, he, hlit, hread, hch, hcolor, -, hsame⟩ := evaluate?_indirect
    (by decide +kernel) (by decide +kernel) (by decide +kernel) (by decide +kernel) hi hp
  cases hx
  cases hy
  have hpos : Channels.clampChroma ⟨0.5, 0.125, 30.0⟩ = ⟨0.5, 0.125, 30.0⟩ := by
    rw [Channels.clampChroma, if_pos (by decide +kernel)]
  rw [hpos] at hch
  exact ⟨hi, hp, e, o, color, he, hch, hcolor, hlit, hread, hsame (by decide +kernel)⟩

/-- The channels differ if the chroma is negative. -/
theorem not_forall_channels?_indirect :
    ¬ ∀ (lookup : Lookup) (indirect literal : String) (l c : Token) (n : Float) (a : Option Token),
      isFiniteAmount l = true → isFiniteAmount c = true → n.isFinite = true →
      a.all isFiniteAmount = true → IndirectHue lookup indirect l c n a → PlainHue literal l c n a →
      ∃ e p q, Expression.parse? indirect = some e ∧ e.channels? lookup = some p ∧
        literalChannels? literal = some q ∧ (p.1 == q.1) = true ∧ (p.2 == q.2) = true := by
  intro h
  have hi : IndirectHue hueLookup "oklch(0.5 -0.125 var(--hue))" (.number 0.5 false)
      (.number (-0.125) true) 30.0 none :=
    ⟨"oklch", "var", "hue", by decide, by decide, by decide +kernel, rfl, by decide +kernel⟩
  have hp : PlainHue "oklch(0.5 -0.125 30)" (.number 0.5 false) (.number (-0.125) true) 30.0 none :=
    ⟨"oklch", .number 30.0 false, by decide, by decide +kernel, by decide +kernel,
      by decide +kernel⟩
  obtain ⟨e, p, q, he, hch, hlit, heq, -⟩ := h _ _ _ _ _ _ _ (by decide +kernel)
    (by decide +kernel) (by decide +kernel) (by decide +kernel) hi hp
  obtain ⟨e', x, y, o, -, hy, hfin, he', hlit', hch'⟩ := channels?_indirect (by decide +kernel)
    (by decide +kernel) (by decide +kernel) (by decide +kernel) hi hp
  obtain rfl : e = e' := Option.some.inj (he.symm.trans he')
  obtain rfl : p = _ := Option.some.inj (hch.symm.trans hch')
  obtain rfl : q = _ := Option.some.inj (hlit.symm.trans hlit')
  have h0 : 0.0 ≤ y := (clampChroma_beq_iff (c := ⟨x, y, 30.0⟩) hfin).1 heq
  obtain rfl : -0.125 = y := Option.some.inj hy
  exact absurd h0 (by decide +kernel)

end DesignVars
