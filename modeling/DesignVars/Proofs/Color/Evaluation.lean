import DesignVars.Color.Expression
import Mathlib.Tactic.SplitIfs

/-!
# When a color expression has a value

* `Operand.Means`: what an operand stands for in a channel, one rule for each form;
* `Operand.evaluate?_eq_some_iff`: it is evaluated to that, if that is finite;
* `Expression.HasBase`, `Expression.HasOpacity`: the base color and the opacity of an expression;
* `Operand.names`, `Expression.names`: the names that an expression looks up;
* **`Expression.evaluate?_exact`**: an expression has a color exactly if its base and all its
  operands have a value, and the color depends on the names in the expression alone.
-/

namespace DesignVars

/-! ## Operands -/

section Operands

variable {lookup : Lookup} {base : Option Base} {channel : Channel} {o : Operand} {x : Float}

/-- What an operand stands for in a channel. There is no rule for a percentage in the hue, for an
angle elsewhere, or for a moved hue elsewhere, nor without a base for what is taken from it. -/
inductive Operand.Means (lookup : Lookup) (base : Option Base) : Channel → Operand → Float → Prop
  | channel {channel source : Channel} {b : Base} (hb : base = some b) :
    Means lookup base channel (.channel source) (source.of b.1 b.2)
  | number {channel : Channel} {x : Float} : Means lookup base channel (.number x) x
  | lightness {x : Float} : Means lookup base .lightness (.percentage x) x
  | opacity {x : Float} : Means lookup base .opacity (.percentage x) x
  | chroma {x : Float} : Means lookup base .chroma (.percentage x) (x * chromaReference)
  | angle {x : Float} : Means lookup base .hue (.angle x) x
  | reference {channel : Channel} {name : String} {x : Float}
    (hx : lookup name = some (.number x)) : Means lookup base channel (.reference name)
      (if channel = .chroma then x * chromaReference else x)
  | hueOffset {delta : Operand} {negate : Bool} {b : Base} {d : Float} (hb : base = some b)
    (hd : Means lookup base .hue delta d) (hfin : d.isFinite = true) :
    Means lookup base .hue (.hueOffset delta negate) (if negate then b.1.z - d else b.1.z + d)

/-- What the operand stands for in the channel is finite, and is this number. -/
def Operand.HasValue (lookup : Lookup) (base : Option Base) (channel : Channel) (o : Operand)
    (x : Float) : Prop :=
  Means lookup base channel o x ∧ x.isFinite = true

theorem finite?_eq_some_iff {x y : Float} : finite? x = some y ↔ x = y ∧ y.isFinite = true := by
  unfold finite?
  split_ifs with h
  · rw [Option.some_inj]
    exact ⟨fun he => ⟨he, he ▸ h⟩, And.left⟩
  · exact ⟨nofun, fun he => absurd (he.1 ▸ he.2) h⟩

theorem Lookup.number?_eq_some_iff {name : String} :
    lookup.number? name = some x ↔ lookup name = some (.number x) := by
  unfold Lookup.number?
  rcases lookup name with _ | y | c <;> simp [Concrete.number?]

theorem Lookup.color?_eq_some_iff {name : String} {c : Rgba} :
    lookup.color? name = some c ↔ lookup name = some (.color c) := by
  unfold Lookup.color?
  rcases lookup name with _ | y | c <;> simp [Concrete.color?]

theorem Operand.hasValue_of_evaluate? (h : o.evaluate? lookup base channel = some x) :
    HasValue lookup base channel o x := by
  induction o generalizing channel x with
  | channel source =>
    obtain ⟨b, hb, h⟩ := Option.bind_eq_some_iff.1 h
    obtain ⟨rfl, hfin⟩ := finite?_eq_some_iff.1 h
    exact ⟨.channel hb, hfin⟩
  | number y =>
    obtain ⟨rfl, hfin⟩ := finite?_eq_some_iff.1 h
    exact ⟨.number, hfin⟩
  | percentage y =>
    cases channel with
    | hue => cases h
    | lightness =>
      obtain ⟨rfl, hfin⟩ := finite?_eq_some_iff.1 h
      exact ⟨.lightness, hfin⟩
    | chroma =>
      obtain ⟨rfl, hfin⟩ := finite?_eq_some_iff.1 h
      exact ⟨.chroma, hfin⟩
    | opacity =>
      obtain ⟨rfl, hfin⟩ := finite?_eq_some_iff.1 h
      exact ⟨.opacity, hfin⟩
  | angle y =>
    rw [evaluate?] at h
    by_cases hc : channel = .hue
    · subst hc
      rw [if_pos rfl] at h
      obtain ⟨rfl, hfin⟩ := finite?_eq_some_iff.1 h
      exact ⟨.angle, hfin⟩
    · rw [if_neg hc] at h
      cases h
  | reference name =>
    obtain ⟨y, hy, h⟩ := Option.bind_eq_some_iff.1 h
    obtain ⟨rfl, hfin⟩ := finite?_eq_some_iff.1 h
    exact ⟨.reference (Lookup.number?_eq_some_iff.1 hy), hfin⟩
  | hueOffset delta negate ih =>
    rw [evaluate?] at h
    by_cases hc : channel = .hue
    · subst hc
      rw [if_pos rfl] at h
      obtain ⟨b, hb, h⟩ := Option.bind_eq_some_iff.1 h
      obtain ⟨d, hd, h⟩ := Option.bind_eq_some_iff.1 h
      obtain ⟨rfl, hfin⟩ := finite?_eq_some_iff.1 h
      exact ⟨.hueOffset hb (ih hd).1 (ih hd).2, hfin⟩
    · rw [if_neg hc] at h
      cases h

theorem Operand.evaluate?_of_means (h : Means lookup base channel o x) (hx : x.isFinite = true) :
    o.evaluate? lookup base channel = some x := by
  induction h with
  | channel hb =>
    rw [evaluate?, hb, Option.bind_some]
    exact finite?_eq_some_iff.2 ⟨rfl, hx⟩
  | number | lightness | opacity | chroma => exact finite?_eq_some_iff.2 ⟨rfl, hx⟩
  | angle =>
    rw [evaluate?, if_pos rfl]
    exact finite?_eq_some_iff.2 ⟨rfl, hx⟩
  | reference hn =>
    rw [evaluate?, Lookup.number?_eq_some_iff.2 hn, Option.bind_some]
    exact finite?_eq_some_iff.2 ⟨rfl, hx⟩
  | hueOffset hb _ hfin ih =>
    rw [evaluate?, if_pos rfl, ih hfin, hb, Option.bind_some, Option.bind_some]
    exact finite?_eq_some_iff.2 ⟨rfl, hx⟩

/-- **An operand is evaluated to what it stands for**, if that is finite. -/
theorem Operand.evaluate?_eq_some_iff :
    o.evaluate? lookup base channel = some x ↔ HasValue lookup base channel o x :=
  ⟨hasValue_of_evaluate?, fun h => evaluate?_of_means h.1 h.2⟩

end Operands

/-! ## Names in expressions -/

def Operand.names : Operand → List String
  | .reference name => [name]
  | .hueOffset delta _ => delta.names
  | .channel _ | .number _ | .percentage _ | .angle _ => []

/-- The names that an expression refers to: its base color and those of its operands. -/
def Expression.names (e : Expression) : List String :=
  e.base.toList ++ e.lightness.names ++ e.chroma.names ++ e.hue.names ++
    e.opacity.elim [] Operand.names

section Names

variable {l₁ l₂ : Lookup}

theorem Operand.evaluate?_congr (base : Option Base) (channel : Channel) {o : Operand}
    (h : ∀ n ∈ o.names, l₁ n = l₂ n) :
    o.evaluate? l₁ base channel = o.evaluate? l₂ base channel := by
  induction o generalizing channel with
  | channel | number | percentage | angle => rfl
  | reference name =>
    unfold evaluate? Lookup.number?
    rw [h name (List.mem_singleton_self name)]
  | hueOffset delta negate ih =>
    unfold evaluate?
    rw [ih .hue h]

theorem Expression.evaluateBase?_congr {e : Expression} (h : ∀ n ∈ e.names, l₁ n = l₂ n) :
    e.evaluateBase? l₁ = e.evaluateBase? l₂ := by
  unfold evaluateBase?
  cases hb : e.base with
  | none => rfl
  | some name =>
    have hn : name ∈ e.names := by simp [names, hb]
    unfold Lookup.color?
    simp only [h name hn]

theorem Expression.evaluateOpacity?_congr (base : Option Base) {e : Expression}
    (h : ∀ n ∈ e.names, l₁ n = l₂ n) :
    e.evaluateOpacity? l₁ base = e.evaluateOpacity? l₂ base := by
  unfold evaluateOpacity?
  cases ho : e.opacity with
  | none => rfl
  | some o => exact o.evaluate?_congr base .opacity fun n hn => h n (by simp [names, ho, hn])

theorem Expression.evaluate?_congr {e : Expression} (h : ∀ n ∈ e.names, l₁ n = l₂ n) :
    e.evaluate? l₁ = e.evaluate? l₂ := by
  have hl (base) : e.lightness.evaluate? l₁ base .lightness =
      e.lightness.evaluate? l₂ base .lightness :=
    Operand.evaluate?_congr base .lightness fun n hn => h n (by simp [names, hn])
  have hc (base) : e.chroma.evaluate? l₁ base .chroma = e.chroma.evaluate? l₂ base .chroma :=
    Operand.evaluate?_congr base .chroma fun n hn => h n (by simp [names, hn])
  have hh (base) : e.hue.evaluate? l₁ base .hue = e.hue.evaluate? l₂ base .hue :=
    Operand.evaluate?_congr base .hue fun n hn => h n (by simp [names, hn])
  unfold evaluate? channels?
  simp only [evaluateBase?_congr h, hl, hc, hh, fun base => evaluateOpacity?_congr base h]

end Names

/-! ## Expressions -/

namespace Expression

variable {lookup : Lookup} {base : Option Base} {e : Expression}

/-- The base color of an expression: none if it names none, and else the variable of that name,
which has to be a color. -/
inductive HasBase (lookup : Lookup) (e : Expression) : Option Base → Prop
  | absent (h : e.base = none) : HasBase lookup e none
  | color {name : String} {c : Rgba} (h : e.base = some name)
    (hc : lookup name = some (.color c)) : HasBase lookup e (some (c.toModel .oklch, c.a))

/-- The opacity of an expression: its own, and else that of the base color, or one. -/
inductive HasOpacity (lookup : Lookup) (base : Option Base) (e : Expression) : Float → Prop
  | written {o : Operand} {x : Float} (h : e.opacity = some o)
    (hx : o.HasValue lookup base .opacity x) : HasOpacity lookup base e x
  | ofBase {b : Base} (h : e.opacity = none) (hb : base = some b) : HasOpacity lookup base e b.2
  | full (h : e.opacity = none) (hb : base = none) : HasOpacity lookup base e 1.0

theorem evaluateBase?_eq_some_iff : e.evaluateBase? lookup = some base ↔ e.HasBase lookup base := by
  unfold evaluateBase?
  constructor
  · intro h
    cases hb : e.base with
    | none =>
      rw [hb] at h
      cases h
      exact .absent hb
    | some name =>
      rw [hb] at h
      obtain ⟨c, hc, rfl⟩ := Option.map_eq_some_iff.1 h
      exact .color hb (Lookup.color?_eq_some_iff.1 hc)
  · rintro (hb | ⟨hb, hc⟩)
    · rw [hb]
    · rw [hb]
      exact Option.map_eq_some_iff.2 ⟨_, Lookup.color?_eq_some_iff.2 hc, rfl⟩

theorem evaluateOpacity?_eq_some_iff {x : Float} :
    e.evaluateOpacity? lookup base = some x ↔ e.HasOpacity lookup base x := by
  unfold evaluateOpacity?
  constructor
  · intro h
    cases ho : e.opacity with
    | some o =>
      rw [ho] at h
      exact .written ho (Operand.evaluate?_eq_some_iff.1 h)
    | none =>
      rw [ho] at h
      cases base with
      | none =>
        cases h
        exact .full ho rfl
      | some b =>
        cases h
        exact .ofBase ho rfl
  · rintro (⟨ho, hx⟩ | ⟨ho, rfl⟩ | ⟨ho, rfl⟩)
    · rw [ho]
      exact Operand.evaluate?_eq_some_iff.2 hx
    · rw [ho]
      rfl
    · rw [ho]
      rfl

/-- The color is that of the channels and the opacity that the parts of the expression stand for,
with a chroma that is at least zero. -/
def HasColor (lookup : Lookup) (base : Option Base) (e : Expression) (color : Rgba) : Prop :=
  ∃ l c h a, e.lightness.HasValue lookup base .lightness l ∧
    e.chroma.HasValue lookup base .chroma c ∧ e.hue.HasValue lookup base .hue h ∧
    e.HasOpacity lookup base a ∧
    color = (Rgba.ofModel .oklch ⟨l, if 0.0 < c then c else 0.0, h⟩ a).clamp

theorem evaluate?_eq_some_iff {color : Rgba} : e.evaluate? lookup = some color ↔
    ∃ base, e.HasBase lookup base ∧ e.HasColor lookup base color := by
  unfold evaluate? channels? HasColor
  simp only [Option.bind_eq_bind, Option.map_eq_some_iff, Option.bind_eq_some_iff,
    evaluateBase?_eq_some_iff, evaluateOpacity?_eq_some_iff, Operand.evaluate?_eq_some_iff]
  constructor
  · rintro ⟨p, ⟨base, hb, l, hl, c, hc, h, hh, a, ha, hp⟩, rfl⟩
    cases hp
    exact ⟨base, hb, l, c, h, a, hl, hc, hh, ha, rfl⟩
  · rintro ⟨base, hb, l, c, h, a, hl, hc, hh, ha, rfl⟩
    exact ⟨_, ⟨base, hb, l, hl, c, hc, h, hh, a, ha, rfl⟩, rfl⟩

theorem exists_hasOpacity_iff : (∃ x, e.HasOpacity lookup base x) ↔
    ∀ o ∈ e.opacity, ∃ x, o.HasValue lookup base .opacity x := by
  constructor
  · rintro ⟨x, ⟨ho, hx⟩ | ⟨ho, -⟩ | ⟨ho, -⟩⟩ o ho'
    · rw [ho] at ho'
      cases ho'
      exact ⟨x, hx⟩
    all_goals
      rw [ho] at ho'
      cases ho'
  · intro h
    cases ho : e.opacity with
    | some o =>
      obtain ⟨x, hx⟩ := h o ho
      exact ⟨x, .written ho hx⟩
    | none =>
      cases base with
      | none => exact ⟨1.0, .full ho rfl⟩
      | some b => exact ⟨b.2, .ofBase ho rfl⟩

/-- **An expression has a color exactly if its base is a color and each of its operands has a finite
value**, and the color depends on the names in the expression alone. -/
theorem evaluate?_exact (lookup : Lookup) (e : Expression) :
    ((e.evaluate? lookup).isSome ↔ ∃ base, e.HasBase lookup base ∧
      (∃ l, e.lightness.HasValue lookup base .lightness l) ∧
      (∃ c, e.chroma.HasValue lookup base .chroma c) ∧ (∃ h, e.hue.HasValue lookup base .hue h) ∧
      ∀ o ∈ e.opacity, ∃ a, o.HasValue lookup base .opacity a) ∧
    (∀ color, e.evaluate? lookup = some color ↔
      ∃ base, e.HasBase lookup base ∧ e.HasColor lookup base color) ∧
    ∀ lookup' : Lookup, (∀ name ∈ e.names, lookup name = lookup' name) →
      e.evaluate? lookup = e.evaluate? lookup' := by
  refine ⟨?_, fun color => evaluate?_eq_some_iff, fun lookup' h => evaluate?_congr h⟩
  rw [Option.isSome_iff_exists]
  constructor
  · rintro ⟨color, h⟩
    obtain ⟨base, hb, l, c, h, a, hl, hc, hh, ha, -⟩ := evaluate?_eq_some_iff.1 h
    exact ⟨base, hb, ⟨l, hl⟩, ⟨c, hc⟩, ⟨h, hh⟩, exists_hasOpacity_iff.1 ⟨a, ha⟩⟩
  · rintro ⟨base, hb, ⟨l, hl⟩, ⟨c, hc⟩, ⟨h, hh⟩, hops⟩
    obtain ⟨a, ha⟩ := exists_hasOpacity_iff.2 hops
    exact ⟨_, evaluate?_eq_some_iff.2 ⟨base, hb, l, c, h, a, hl, hc, hh, ha, rfl⟩⟩

/-- One color and one number, and whatever `other` is. -/
def brandLookup (other : Option Concrete) : Lookup
  | "brand" => some (.color ⟨0.5, 0.25, 0.75, 0.5⟩)
  | "turn" => some (.number 30.0)
  | "other" => other
  | _ => none

/-- `oklch(from var(--brand) 50% 0.125 var(--turn) / 25%)`. -/
def turnedBrand : Expression :=
  ⟨some "brand", .percentage 0.5, .number 0.125, .reference "turn", some (.percentage 0.25)⟩

theorem evaluate?_exact_turnedBrand :
    (turnedBrand.evaluate? (brandLookup none)).isSome = true ∧
    turnedBrand.evaluate? (brandLookup none) =
      turnedBrand.evaluate? (brandLookup (some (.number 1.0))) := by
  have hagree : ∀ name ∈ turnedBrand.names,
      brandLookup none name = brandLookup (some (.number 1.0)) name := by
    intro name hn
    have hn : name ∈ ["brand", "turn"] := hn
    simp only [List.mem_cons, List.not_mem_nil, or_false] at hn
    rcases hn with rfl | rfl <;> rfl
  refine ⟨(evaluate?_exact (brandLookup none) turnedBrand).1.2 ⟨_, .color rfl rfl, ?_, ?_, ?_, ?_⟩,
    (evaluate?_exact (brandLookup none) turnedBrand).2.2 _ hagree⟩
  · exact ⟨0.5, .lightness, by decide +kernel⟩
  · exact ⟨0.125, .number, by decide +kernel⟩
  · exact ⟨30.0, .reference rfl, by decide +kernel⟩
  · rintro o ⟨⟩
    exact ⟨0.25, .opacity, by decide +kernel⟩

end Expression

end DesignVars
