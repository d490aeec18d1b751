import DesignVars.Proofs.Color.Finite

/-!
# Signed zeros

The two zeros are equal as numbers, and the way from OKLCH to a color does not tell them apart.

* `Alike`, `SameNumber`: equal exact forms and equal floats, or zeros of any signs;
* `SameNumber.mul`, `SameNumber.add`, `SameNumber.sub`: arithmetic respects it;
* `sameNumber_atLeastZero`: so does replacing what is not positive by zero, for numbers from zero
  on;
* `SameNumber.encodeChannel`, `SameNumber.clampFinite`: and so do the functions of one channel;
* **`clamp_ofModel_beq`**: OKLCH channels that are the same give equal colors after clamping.
-/

namespace DesignVars

open Float.Model Float.Model.UnpackedFloat

/-! ## Exact forms -/

/-- Equal, or zeros of any signs. -/
inductive Alike : UnpackedFloat → UnpackedFloat → Prop
  | refl (u : UnpackedFloat) : Alike u u
  | zero (s t : Sign) : Alike (.zero s) (.zero t)

namespace Alike

variable {a b c d : UnpackedFloat}

theorem trans (h : Alike a b) (h' : Alike b c) : Alike a c := by
  cases h with
  | refl => exact h'
  | zero =>
    cases h' with
    | refl => exact .zero _ _
    | zero => exact .zero _ _

theorem of_zero (ha : ∃ s, a = .zero s) (hb : ∃ s, b = .zero s) : Alike a b := by
  obtain ⟨s, rfl⟩ := ha
  obtain ⟨t, rfl⟩ := hb
  exact .zero s t

theorem op {f : UnpackedFloat → UnpackedFloat → UnpackedFloat}
    (hl : ∀ s t c, Alike (f (.zero s) c) (f (.zero t) c))
    (hr : ∀ a s t, Alike (f a (.zero s)) (f a (.zero t))) (h : Alike a b) (h' : Alike c d) :
    Alike (f a c) (f b d) := by
  have hleft : Alike (f a c) (f b c) := by
    cases h with
    | refl => exact .refl _
    | zero s t => exact hl s t c
  have hright : Alike (f b c) (f b d) := by
    cases h' with
    | refl => exact .refl _
    | zero s t => exact hr b s t
  exact hleft.trans hright

theorem mul (h : Alike a b) (h' : Alike c d) :
    Alike (.mul .binary64 a c) (.mul .binary64 b d) := by
  refine op (fun s t c => ?_) (fun a s t => ?_) h h'
  · cases c with
    | notANumber | infinity => exact .refl _
    | zero | finite => exact .zero _ _
  · cases a with
    | notANumber | infinity => exact .refl _
    | zero | finite => exact .zero _ _

theorem add (h : Alike a b) (h' : Alike c d) :
    Alike (.add .binary64 a c) (.add .binary64 b d) := by
  have hz (s t : Sign) : ∃ r, UnpackedFloat.add .binary64 (.zero s) (.zero t) = .zero r := by
    by_cases hst : (s == t) = true
    · exact ⟨s, if_pos hst⟩
    · exact ⟨.positive, if_neg hst⟩
  refine op (fun s t c => ?_) (fun a s t => ?_) h h'
  · cases c with
    | notANumber | infinity | finite => exact .refl _
    | zero => exact of_zero (hz _ _) (hz _ _)
  · cases a with
    | notANumber | infinity | finite => exact .refl _
    | zero => exact of_zero (hz _ _) (hz _ _)

theorem sub (h : Alike a b) (h' : Alike c d) :
    Alike (.sub .binary64 a c) (.sub .binary64 b d) := by
  have hz (s t : Sign) : ∃ r, UnpackedFloat.sub .binary64 (.zero s) (.zero t) = .zero r := by
    by_cases hst : (s == -t) = true
    · exact ⟨s, if_pos hst⟩
    · exact ⟨.positive, if_neg hst⟩
  refine op (fun s t c => ?_) (fun a s t => ?_) h h'
  · cases c with
    | notANumber | infinity | finite => exact .refl _
    | zero => exact of_zero (hz _ _) (hz _ _)
  · cases a with
    | notANumber | infinity | finite => exact .refl _
    | zero => exact of_zero (hz _ _) (hz _ _)

end Alike

/-! ## Floats -/

/-- A zero of either sign. -/
def IsZero (x : Float) : Prop := ∃ s, x.toModel.unpack = .zero s

/-- Equal, or zeros of any signs. -/
inductive SameNumber : Float → Float → Prop
  | refl (x : Float) : SameNumber x x
  | zero {x y : Float} (hx : IsZero x) (hy : IsZero y) : SameNumber x y

theorem ext_toModel {x y : Float} (h : x.toModel = y.toModel) : x = y := by
  cases x
  cases y
  cases h
  rfl

theorem isZero_of_pack {x : Float} {s : Sign} (h : x.toModel = .pack (.zero s)) : IsZero x := by
  refine ⟨s, ?_⟩
  rw [h]
  cases s <;> rfl

namespace SameNumber

variable {x y z w : Float}

theorem alike (h : SameNumber x y) : Alike x.toModel.unpack y.toModel.unpack := by
  cases h with
  | refl => exact .refl _
  | zero hx hy =>
    obtain ⟨s, hx⟩ := hx
    obtain ⟨t, hy⟩ := hy
    rw [hx, hy]
    exact .zero s t

theorem of_pack {a b : UnpackedFloat} (hx : x.toModel = .pack a) (hy : y.toModel = .pack b)
    (h : Alike a b) : SameNumber x y := by
  cases h with
  | refl =>
    obtain rfl := ext_toModel (hx.trans hy.symm)
    exact .refl x
  | zero => exact .zero (isZero_of_pack hx) (isZero_of_pack hy)

theorem mul (h : SameNumber x y) (h' : SameNumber z w) : SameNumber (x * z) (y * w) :=
  of_pack rfl rfl (h.alike.mul h'.alike)

theorem add (h : SameNumber x y) (h' : SameNumber z w) : SameNumber (x + z) (y + w) :=
  of_pack rfl rfl (h.alike.add h'.alike)

theorem sub (h : SameNumber x y) (h' : SameNumber z w) : SameNumber (x - z) (y - w) :=
  of_pack rfl rfl (h.alike.sub h'.alike)

theorem beq (h : SameNumber x y) (hx : x.isFinite = true) : (x == y) = true := by
  change x.toModel.unpack.isFinite = true at hx
  change x.toModel.unpack.beq y.toModel.unpack = true
  have h := h.alike
  generalize x.toModel.unpack = a at *
  generalize y.toModel.unpack = b at *
  cases h with
  | zero => rfl
  | refl =>
    cases a with
    | notANumber | infinity => cases hx
    | zero => rfl
    | finite s m e hm =>
      have hself : (compare e e).then (compare m m) = .eq := by
        rw [Std.compare_self, Std.compare_self]
        rfl
      cases s with
      | positive =>
        change (some ((compare e e).then (compare m m)) == some .eq) = true
        rw [hself]
        rfl
      | negative =>
        change (some ((compare e e).then (compare m m)).swap == some .eq) = true
        rw [hself]
        rfl

end SameNumber

/-! ## Functions of a channel -/

section Channel

variable {x y : Float}

theorem IsZero.abs (h : IsZero x) : x.abs = 0.0 := by
  obtain ⟨s, hs⟩ := h
  have habs : x.abs.toModel = .pack x.toModel.unpack.abs := rfl
  refine ext_toModel ?_
  rw [habs, hs]
  rfl

theorem IsZero.encodeChannel (h : IsZero x) : IsZero (Model.encodeChannel x) := by
  have hle : (0.0 : Float) ≤ 0.0031308 := by decide +kernel
  have hmul : 12.92 * (0.0 : Float) = 0.0 := by decide +kernel
  simp only [Model.encodeChannel, h.abs, if_pos hle, hmul, Decimal.withSign]
  split_ifs
  · exact ⟨.negative, by rfl⟩
  · exact ⟨.positive, by rfl⟩

theorem le_iff_lt_or_beq : x ≤ y ↔ x < y ∨ (x == y) = true := by
  rw [le_iff_unpack, lt_iff_unpack]
  let r := x.toModel.unpack.compare y.toModel.unpack
  change r.any (·.isLE) = true ↔ (r == some .lt) = true ∨ (r == some .eq) = true
  rcases r with _ | (_ | _ | _) <;> decide

theorem isZero_of_beq (h : (0.0 == x) = true) : IsZero x := by
  change UnpackedFloat.beq (.zero .positive) x.toModel.unpack = true at h
  cases hx : x.toModel.unpack with
  | zero s => exact ⟨s, hx⟩
  | notANumber =>
    rw [hx] at h
    cases h
  | infinity s | finite s =>
    rw [hx] at h
    cases s <;> cases h

/-- Replacing what is not positive by zero changes no number from zero on, and no other. -/
theorem sameNumber_atLeastZero (h : 0.0 ≤ x) : SameNumber (if 0.0 < x then x else 0.0) x := by
  rcases le_iff_lt_or_beq.1 h with hx | hx
  · rw [if_pos hx]
    exact .refl x
  · split_ifs
    · exact .refl x
    · exact .zero ⟨.positive, rfl⟩ (isZero_of_beq hx)

theorem atLeastZero_beq_iff (hx : x.isFinite = true) :
    ((if 0.0 < x then x else 0.0) == x) = true ↔ 0.0 ≤ x := by
  rw [le_iff_lt_or_beq]
  by_cases h : 0.0 < x
  · rw [if_pos h]
    exact iff_of_true ((SameNumber.refl x).beq hx) (.inl h)
  · rw [if_neg h, or_iff_right h]

theorem IsZero.inRange (h : IsZero x) : Rgba.inRange x = true := by
  obtain ⟨s, hs⟩ := h
  have h0 : (0.0 : Float) ≤ x := by
    rw [le_iff_unpack, hs]
    rfl
  have h1 : x ≤ (1.0 : Float) := by
    rw [le_iff_unpack, hs]
    rfl
  exact Bool.and_eq_true_iff.2 ⟨decide_eq_true h0, decide_eq_true h1⟩

theorem IsZero.clampFinite (h : IsZero x) : Rgba.clampFinite x = x := by
  obtain ⟨s, hs⟩ := h
  have hfin : x.isFinite = true := by
    change x.toModel.unpack.isFinite = true
    rw [hs]
    rfl
  have h0 : ¬ x < (0.0 : Float) := by
    rw [lt_iff_unpack, hs]
    exact Bool.false_ne_true
  have h1 : ¬ (1.0 : Float) < x := by
    rw [lt_iff_unpack, hs]
    exact Bool.false_ne_true
  rw [Rgba.clampFinite, if_pos hfin, Rgba.clampChannel, if_neg h0, if_neg h1]

namespace SameNumber

theorem encodeChannel (h : SameNumber x y) :
    SameNumber (Model.encodeChannel x) (Model.encodeChannel y) := by
  cases h with
  | refl => exact .refl _
  | zero hx hy => exact .zero hx.encodeChannel hy.encodeChannel

theorem inRange (h : SameNumber x y) : Rgba.inRange x = Rgba.inRange y := by
  cases h with
  | refl => rfl
  | zero hx hy => rw [hx.inRange, hy.inRange]

theorem clampFinite (h : SameNumber x y) :
    SameNumber (Rgba.clampFinite x) (Rgba.clampFinite y) := by
  cases h with
  | refl => exact .refl _
  | zero hx hy =>
    rw [hx.clampFinite, hy.clampFinite]
    exact .zero hx hy

end SameNumber

end Channel

/-! ## Channels -/

/-- The same number in each channel. -/
structure Channels.Same (c d : Channels) : Prop where
  x : SameNumber c.x d.x
  y : SameNumber c.y d.y
  z : SameNumber c.z d.z

namespace Channels.Same

variable {c d : Channels}

theorem srgbOfLinear (h : c.Same d) : (Model.srgbOfLinear c).Same (Model.srgbOfLinear d) :=
  ⟨h.x.encodeChannel, h.y.encodeChannel, h.z.encodeChannel⟩

theorem linearOfOklab (h : c.Same d) : (Model.linearOfOklab c).Same (Model.linearOfOklab d) := by
  have scaled (x : Float) {y z : Float} (h : SameNumber y z) : SameNumber (x * y) (x * z) :=
    (SameNumber.refl x).mul h
  have cube {x y : Float} (h : SameNumber x y) : SameNumber (x * x * x) (y * y * y) :=
    (h.mul h).mul h
  have hl := cube ((h.x.add (scaled 0.3963377774 h.y)).add (scaled 0.2158037573 h.z))
  have hm := cube ((h.x.sub (scaled 0.1055613458 h.y)).sub (scaled 0.0638541728 h.z))
  have hs := cube ((h.x.sub (scaled 0.0894841775 h.y)).sub (scaled 1.2914855480 h.z))
  exact ⟨((scaled _ hl).sub (scaled _ hm)).add (scaled _ hs),
    ((scaled _ hl).add (scaled _ hm)).sub (scaled _ hs),
    ((scaled _ hl).sub (scaled _ hm)).add (scaled _ hs)⟩

/-- The sine and the cosine of a hue are taken as they come, so the hues have to be equal. -/
theorem oklabOfOklch (h : c.Same d) (hz : c.z = d.z) :
    (Model.oklabOfOklch c).Same (Model.oklabOfOklch d) := by
  simp only [Model.oklabOfOklch, hz]
  exact ⟨h.x, h.y.mul (.refl _), h.y.mul (.refl _)⟩

end Channels.Same

/-! ## Colors -/

/-- The same number in each channel, and for the opacity. -/
structure Rgba.Same (c d : Rgba) : Prop where
  r : SameNumber c.r d.r
  g : SameNumber c.g d.g
  b : SameNumber c.b d.b
  a : SameNumber c.a d.a

namespace Rgba.Same

variable {c d : Rgba}

theorem clamp (h : c.Same d) : c.clamp.Same d.clamp := by
  have hdisp : c.isDisplayable = d.isDisplayable := by
    rw [isDisplayable, isDisplayable, h.r.inRange, h.g.inRange, h.b.inRange, h.a.inRange]
  rw [Rgba.clamp, Rgba.clamp, hdisp]
  split_ifs
  · exact h
  · exact ⟨h.r.clampFinite, h.g.clampFinite, h.b.clampFinite, h.a.clampFinite⟩

theorem beq (h : c.Same d) (hc : areFinite c.floats = true) : (c == d) = true := by
  simp only [areFinite, floats, List.all_cons, List.all_nil, Bool.and_eq_true] at hc
  obtain ⟨hr, hg, hb, ha, -⟩ := hc
  show (c.r == d.r && (c.g == d.g && (c.b == d.b && c.a == d.a))) = true
  rw [h.r.beq hr, h.g.beq hg, h.b.beq hb, h.a.beq ha]
  rfl

end Rgba.Same

/-- **OKLCH channels that are the same give equal colors after clamping.** -/
theorem clamp_ofModel_beq {c d : Channels} (h : c.Same d) (hz : c.z = d.z) (a : Float) :
    ((Rgba.ofModel .oklch c a).clamp == (Rgba.ofModel .oklch d a).clamp) = true := by
  have hs : (Model.oklch.toSrgb c).Same (Model.oklch.toSrgb d) :=
    (h.oklabOfOklch hz).linearOfOklab.srgbOfLinear
  have hc : (Rgba.ofModel .oklch c a).Same (Rgba.ofModel .oklch d a) := ⟨hs.x, hs.y, hs.z, .refl a⟩
  exact hc.clamp.beq (areFinite_clamp _)

end DesignVars
