import DesignVars.Proofs.Color.Byte
import DesignVars.Proofs.Document

/-!
# Finite channels

* `isFinite_of_inRange`, `areFinite_clamp`: channels that can be shown are finite;
* `shiftToTargetExponent_lt`, `roundWithAccuracy_exponent_le`: how far rounding lifts an exponent;
* `isFinite_pack`: a float of such an exponent is finite;
* **`isFinite_mul_chromaReference`**: a finite share of the reference chroma is a finite chroma.
-/

namespace DesignVars

open Float.Model Float.Model.UnpackedFloat

/-! ## Displayable channels -/

theorem le_iff_unpack {x y : Float} : x ≤ y ↔ x.toModel.unpack.le y.toModel.unpack = true := by
  constructor
  · exact fun h => of_decide_eq_true h
  · exact fun h => decide_eq_true h

theorem isFinite_of_inRange {x : Float} (h : Rgba.inRange x = true) : x.isFinite = true := by
  obtain ⟨h0, h1⟩ := Bool.and_eq_true_iff.1 h
  have h0 := le_iff_unpack.1 (of_decide_eq_true h0)
  have h1 := le_iff_unpack.1 (of_decide_eq_true h1)
  change x.toModel.unpack.isFinite = true
  generalize x.toModel.unpack = u at *
  cases u with
  | notANumber => cases h1
  | infinity sign =>
    cases sign with
    | negative => cases h0
    | positive => cases h1
  | zero | finite => rfl

theorem isFinite_clampFinite (x : Float) : (Rgba.clampFinite x).isFinite = true := by
  unfold Rgba.clampFinite Rgba.clampChannel
  split_ifs with hx
  · rfl
  · rfl
  · exact hx
  · rfl

theorem areFinite_clamp (c : Rgba) : areFinite c.clamp.floats = true := by
  unfold Rgba.clamp
  split_ifs with hc
  · simp only [Rgba.isDisplayable, Bool.and_eq_true] at hc
    obtain ⟨⟨⟨hr, hg⟩, hb⟩, ha⟩ := hc
    simp [areFinite, Rgba.floats, isFinite_of_inRange, hr, hg, hb, ha]
  · simp [areFinite, Rgba.floats, isFinite_clampFinite]

/-! ## Exponents -/

theorem shiftToTargetExponent_lt {m k : Nat} (hm : m < 2 ^ k) (e : Int) (a : Accuracy) :
    (shiftToTargetExponent Format.binary64 m e a).1.mantissa < 2 ^ 53 ∧
      (shiftToTargetExponent Format.binary64 m e a).2 ≤ max e (max (k + e - 53) (-1074)) := by
  have hlog : m.log2 < k ∨ m.log2 = 0 := by
    by_cases h0 : m = 0
    · subst h0
      exact .inr rfl
    · exact .inl ((Nat.log2_lt h0).2 hm)
  have ht : Format.binary64.targetExponent (totalExponent m e) =
    max ((m.log2 : Int) + 1 + e - 53) (-1074) := rfl
  rw [shiftToTargetExponent, shiftToExponent, ht, mantissa_shiftRight,
    mantissa_ofMantissaAndAccuracy]
  generalize hn : (max ((m.log2 : Int) + 1 + e - 53) (-1074) - e).toNat = n
  constructor
  · rw [Nat.div_lt_iff_lt_mul (Nat.two_pow_pos n), ← Nat.pow_add]
    exact Nat.lt_log2_self.trans_le (Nat.pow_le_pow_right Nat.two_pos (by omega))
  · show e + (n : Int) ≤ _
    omega

theorem roundWithAccuracy_exponent_le {m k : Nat} (hm : m < 2 ^ k) {e : Int} (he : e ≤ 970)
    (hk : k + e ≤ 1023) (s : Sign) (a : Accuracy) :
    (∃ t, roundWithAccuracy Format.binary64 s m e a = .zero t) ∨
      ∃ n i hn, i ≤ 971 ∧ roundWithAccuracy Format.binary64 s m e a = .finite s n i hn := by
  obtain ⟨hm₁, he₁⟩ := shiftToTargetExponent_lt hm e a
  rcases h₁ : shiftToTargetExponent Format.binary64 m e a with ⟨em₁, e₁⟩
  rw [h₁] at hm₁ he₁
  dsimp only at hm₁ he₁
  have hr : em₁.roundedMantissa < 2 ^ 54 := by
    have := roundedMantissa_le em₁
    omega
  obtain ⟨-, he₂⟩ := shiftToTargetExponent_lt hr e₁ .exact
  rcases h₂ : shiftToTargetExponent Format.binary64 em₁.roundedMantissa e₁ .exact with ⟨em₂, e₂⟩
  rw [h₂] at he₂
  dsimp only at he₂
  unfold roundWithAccuracy
  rw [h₁]
  dsimp only
  rw [h₂]
  by_cases h0 : em₂.mantissa = 0
  · exact .inl ⟨s, dif_pos h0⟩
  · exact .inr ⟨_, e₂, Nat.pos_of_ne_zero h0, by omega, dif_neg h0⟩

/-- Only the largest exponent field stands for what is not finite. -/
theorem isFinite_of_exponent {x : Float}
    (h : @unpackExponent Format.binary64 x.toModel.toBits.toBitVec ≠ -1#_) :
    x.isFinite = true := by
  change x.toModel.unpack.isFinite = true
  cases hu : x.toModel.unpack with
  | zero | finite => rfl
  | notANumber | infinity =>
    rcases ite_eq_iff.1 hu with ⟨hmax, -⟩ | ⟨-, hu⟩
    · exact absurd hmax h
    rcases ite_eq_iff.1 hu with ⟨-, hu⟩ | ⟨-, hu⟩
    · rcases dite_eq_iff.1 hu with ⟨_, hu⟩ | ⟨_, hu⟩ <;> cases hu
    · cases hu

theorem isFinite_pack (s : Sign) {m : Nat} {e : Int} (hm : 0 < m) (he : e ≤ 971) :
    (Float.ofModel (.pack (.finite s m e hm))).isFinite = true := by
  refine isFinite_of_exponent ?_
  change @unpackExponent Format.binary64
    (UnpackedFloat.pack Format.binary64 (.finite s m e hm)) ≠ -1#_
  rw [pack_finite s hm he]
  split_ifs
  · rw [unpackExponent_packComponents]
    intro h
    have h := congrArg BitVec.toNat h
    rw [BitVec.toNat_ofNat] at h
    change _ = 2047 at h
    omega
  · rw [unpackExponent_packComponents]
    decide

/-! ## Chromas -/

theorem isFinite_mul_chromaReference {x : Float} (hx : x.isFinite = true) :
    (x * chromaReference).isFinite = true := by
  have href : chromaReference.toModel.unpack =
    .finite .positive 7205759403792794 (-54) (by decide) := by rfl
  have hmul : x * chromaReference = ⟨Float.Model.pack (UnpackedFloat.mul Format.binary64
    x.toModel.unpack chromaReference.toModel.unpack)⟩ := rfl
  change x.toModel.unpack.isFinite = true at hx
  rw [hmul, href]
  cases hu : x.toModel.unpack with
  | notANumber => rw [hu] at hx; cases hx
  | infinity => rw [hu] at hx; cases hx
  | zero s => cases s <;> rfl
  | finite s m e hm =>
    obtain ⟨hlt, he⟩ := bounds_of_unpack hu
    have hprod : m * 7205759403792794 < 2 ^ 106 := by omega
    change (Float.ofModel (.pack (roundWithAccuracy Format.binary64 (s * .positive)
      (m * 7205759403792794) (e + -54) .exact))).isFinite = true
    rcases roundWithAccuracy_exponent_le hprod (e := e + -54) (by omega) (by omega) (s * .positive)
      .exact with ⟨t, h⟩ | ⟨n, i, hn, hi, h⟩
    · rw [h]
      cases t <;> rfl
    · rw [h]
      exact isFinite_pack _ hn hi

end DesignVars
