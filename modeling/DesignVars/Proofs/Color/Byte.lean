import DesignVars.Color.Literal
import Mathlib.Algebra.Order.Ring.Nat
import Mathlib.Tactic.SplitIfs

/-!
# Channels as bytes

A channel between zero and one, times 255, is at most 255 even after rounding to a float and to an
integer.

* `roundWithAccuracy_le`: rounding a product goes up by at most one step;
* `ofFloat_pack`: the exact form of a float that was rounded;
* **`toByte_le`**: a channel is one of 256 steps;
* **`toByte_channelOfByte`**: and a channel that is such a step is read as it.
-/

namespace DesignVars

open Decimal Float.Model Float.Model.UnpackedFloat

/-! ## Rounding to a float -/

theorem mantissa_shiftRight (em : ExtendedMantissa) (n : Nat) :
    (em >>> n).mantissa = em.mantissa / 2 ^ n := by
  induction n with
  | zero => exact (Nat.div_one _).symm
  | succ n ih =>
    show (em >>> n).mantissa / 2 = _
    rw [ih, Nat.div_div_eq_div_mul, Nat.pow_succ]

theorem roundedMantissa_le (em : ExtendedMantissa) : em.roundedMantissa ≤ em.mantissa + 1 := by
  rcases em with ⟨m, r, s⟩
  cases r <;> cases s <;> simp [ExtendedMantissa.roundedMantissa, ExtendedMantissa.accuracy,
    Accuracy.roundToNearestEven]
  omega

theorem mantissa_ofMantissaAndAccuracy (m : Nat) (a : Accuracy) :
    (ExtendedMantissa.ofMantissaAndAccuracy m a).mantissa = m := by
  rcases a with _ | o
  · rfl
  · cases o <;> rfl

theorem targetExponent_le {m k : Nat} (hm : m < 2 ^ (k + 8)) :
    Format.binary64.targetExponent (totalExponent m (-(k : Int))) ≤ -45 := by
  have hlog : m.log2 ≤ k + 7 := by
    by_cases h0 : m = 0
    · subst h0
      exact Nat.zero_le _
    · exact Nat.lt_succ_iff.1 ((Nat.log2_lt h0).2 hm)
  have ht : Format.binary64.targetExponent (totalExponent m (-(k : Int))) =
      max ((m.log2 : Int) + 1 + -k - 53) (-1074) := rfl
  rw [ht]
  omega

/-- Dropping digits keeps the size of a mantissa over its unit. -/
theorem shiftToTargetExponent_le {m k c : Nat} (hc : c ≤ 1) (hk : 45 ≤ k) (hm : m ≤ 255 * 2 ^ k + c)
    (a : Accuracy) : ∃ j : Nat, 45 ≤ j ∧
      (shiftToTargetExponent Format.binary64 m (-k) a).2 = -j ∧
      (shiftToTargetExponent Format.binary64 m (-k) a).1.mantissa ≤ 255 * 2 ^ j + c := by
  have hm' : m < 2 ^ (k + 8) := by
    have : 1 < 2 ^ k := Nat.one_lt_two_pow (by omega)
    rw [Nat.pow_add]
    omega
  have ht := targetExponent_le hm'
  generalize hs : (Format.binary64.targetExponent (totalExponent m (-(k : Int))) -
    -(k : Int)).toNat = n
  have hn : n ≤ k - 45 := by omega
  refine ⟨k - n, by omega, ?_, ?_⟩
  · show -(k : Int) + _ = _
    rw [hs]
    omega
  · have hq : (shiftToTargetExponent Format.binary64 m (-k) a).1.mantissa = m / 2 ^ n := by
      rw [shiftToTargetExponent, shiftToExponent, hs, mantissa_shiftRight,
        mantissa_ofMantissaAndAccuracy]
    rw [hq]
    have hsplit : 255 * 2 ^ k = 255 * 2 ^ (k - n) * 2 ^ n := by
      rw [Nat.mul_assoc, ← Nat.pow_add, Nat.sub_add_cancel (by omega)]
    have hdiv : m / 2 ^ n ≤ (255 * 2 ^ (k - n) * 2 ^ n + c) / 2 ^ n :=
      Nat.div_le_div_right (hsplit ▸ hm)
    rw [Nat.mul_comm, Nat.mul_add_div (Nat.two_pow_pos n)] at hdiv
    exact hdiv.trans (Nat.add_le_add_left (Nat.div_le_self c _) _)

/-- Rounding a number of at most 255 to a float goes up by at most one unit in the last place. -/
theorem roundWithAccuracy_le {m k : Nat} (hk : 45 ≤ k) (hm : m ≤ 255 * 2 ^ k) (s : Sign) :
    roundWithAccuracy Format.binary64 s m (-k) .exact = .zero s ∨
      ∃ (n j : Nat) (hn : 0 < n), 45 ≤ j ∧ n ≤ 255 * 2 ^ j + 1 ∧
        roundWithAccuracy Format.binary64 s m (-k) .exact = .finite s n (-j) hn := by
  obtain ⟨i, hi, he, hmi⟩ := shiftToTargetExponent_le (Nat.zero_le 1) hk hm .exact
  rcases h₁ : shiftToTargetExponent Format.binary64 m (-k) .exact with ⟨em₁, e₁⟩
  rw [h₁] at he hmi
  obtain rfl : e₁ = -i := he
  have hr := (roundedMantissa_le em₁).trans (Nat.succ_le_succ hmi)
  obtain ⟨j, hj, he, hmj⟩ := shiftToTargetExponent_le (Nat.le_refl 1) hi hr .exact
  rcases h₂ : shiftToTargetExponent Format.binary64 em₁.roundedMantissa (-i) .exact with ⟨em₂, e₂⟩
  rw [h₂] at he hmj
  obtain rfl : e₂ = -j := he
  unfold roundWithAccuracy
  rw [h₁]
  dsimp only
  rw [h₂]
  by_cases h0 : em₂.mantissa = 0
  · exact .inl (dif_pos h0)
  · exact .inr ⟨_, j, Nat.pos_of_ne_zero h0, hj, hmj, dif_neg h0⟩

/-! ## The exact form of a rounded float -/

/-- The exact form of a float that is at most 255, up to one unit in the last place. -/
def Decimal.Binary.AtMostByte (b : Binary) : Prop :=
  ∃ k : Nat, 45 ≤ k ∧ b.q = -k ∧ b.m ≤ 255 * 2 ^ k + 1

theorem round_le {b : Binary} (h : b.AtMostByte) : b.round ≤ 255 := by
  obtain ⟨k, hk, hq, hm⟩ := h
  have hpow : 2 < 2 ^ k := Nat.lt_of_lt_of_le (by decide) (Nat.pow_le_pow_right Nat.two_pos hk)
  have hnum : b.scaledNum 0 = b.m := by
    simp [Binary.scaledNum, hq]
  have hden : b.scaledDen 0 = 2 ^ k := by
    simp [Binary.scaledDen, hq]
  have hdiv := Nat.div_add_mod b.m (2 ^ k)
  have hmod := Nat.mod_lt b.m (Nat.two_pow_pos k)
  have hle : b.m / 2 ^ k ≤ 255 := by
    rw [← Nat.lt_succ_iff, Nat.div_lt_iff_lt_mul (Nat.two_pow_pos k)]
    omega
  rw [Binary.round, hnum, hden, roundDiv]
  by_cases hmax : b.m / 2 ^ k = 255
  · have htwice : 2 * (b.m % 2 ^ k) < 2 ^ k := by
      rw [hmax] at hdiv
      omega
    rw [if_pos htwice, hmax]
  · split_ifs <;> omega

theorem toNat_packComponents (s : Sign) (e : BitVec 11) (f : BitVec 52) :
    (packComponents Format.binary64 s e f).toNat =
      s.toBitVec.toNat * 2 ^ 63 + e.toNat * 2 ^ 52 + f.toNat := by
  simp only [packComponents, BitVec.toNat_append]
  rw [← Nat.shiftLeft_add_eq_or_of_lt e.isLt, ← Nat.shiftLeft_add_eq_or_of_lt f.isLt]
  simp only [Nat.shiftLeft_eq]
  omega

theorem ofFloat_of_toBits {x : Float} {s : Sign} {e : BitVec 11} {f : BitVec 52}
    (h : x.toBits = UInt64.ofBitVec (packComponents Format.binary64 s e f)) :
    (Binary.ofFloat x).m = (if e.toNat = 0 then f.toNat else 2 ^ 52 + f.toNat) ∧
      (Binary.ofFloat x).q = (if e.toNat = 0 then -1074 else e.toNat - 1075 : Int) := by
  have hb := toNat_packComponents s e f
  have he := e.isLt
  have hf := f.isLt
  generalize packComponents Format.binary64 s e f = b at hb h
  have hE : ((x.toBits >>> 52) &&& 0x7FF).toNat = e.toNat := by
    have h1 : ((UInt64.ofBitVec b >>> 52) &&& 0x7FF).toNat = b.toNat / 2 ^ 52 % 2 ^ 11 := by
      rw [← Nat.shiftRight_eq_div_pow, ← Nat.and_two_pow_sub_one_eq_mod]
      rfl
    rw [h, h1, hb]
    omega
  have hF : (x.toBits &&& 0xFFFFFFFFFFFFF).toNat = f.toNat := by
    have h1 : (UInt64.ofBitVec b &&& 0xFFFFFFFFFFFFF).toNat = b.toNat % 2 ^ 52 := by
      rw [← Nat.and_two_pow_sub_one_eq_mod]
      rfl
    rw [h, h1, hb]
    omega
  simp only [Binary.ofFloat, hE, hF, beq_iff_eq]
  split_ifs <;> simp

theorem atMostByte_subnormal {x : Float} {s : Sign} {f : BitVec 52}
    (h : x.toBits = UInt64.ofBitVec (packComponents Format.binary64 s 0#11 f)) :
    (Binary.ofFloat x).AtMostByte := by
  obtain ⟨hm, hq⟩ := ofFloat_of_toBits h
  have hf := f.isLt
  obtain ⟨k, hk⟩ : ∃ k : Nat, k = 1074 := ⟨_, rfl⟩
  have hpow : 2 ^ 52 ≤ 2 ^ k := Nat.pow_le_pow_right Nat.two_pos (by omega)
  refine ⟨k, by omega, by simpa [hk] using hq, hm.trans_le ?_⟩
  show f.toNat ≤ 255 * 2 ^ k + 1
  omega

theorem pack_finite (s : Sign) {m : Nat} {e : Int} (hm : 0 < m) (he : e ≤ 971) :
    UnpackedFloat.pack Format.binary64 (.finite s m e hm) =
      if m.log2 + 1 = 53 then packComponents Format.binary64 s
        (BitVec.ofNat 11 (e + 1023 + 52).toNat) (BitVec.ofNat 52 m)
      else packComponents Format.binary64 s 0#11 (BitVec.ofNat 52 m) := by
  have hexp : ¬ 2 ^ 11 ≤ (e + 1023 + 52).toNat + 1 := by omega
  exact if_neg hexp

theorem ofFloat_pack (s : Sign) {n j : Nat} (hn : 0 < n) (hj : 45 ≤ j)
    (hle : n ≤ 255 * 2 ^ j + 1) :
    (Binary.ofFloat ⟨Float.Model.pack (.finite s n (-j) hn)⟩).AtMostByte := by
  have hbits : (Float.ofModel (Float.Model.pack (.finite s n (-j) hn))).toBits =
      UInt64.ofBitVec (UnpackedFloat.pack Format.binary64 (.finite s n (-j) hn)) := rfl
  rw [pack_finite s hn (by omega)] at hbits
  by_cases hlog : n.log2 + 1 = 53
  · rw [if_pos hlog] at hbits
    by_cases hzero : (-(j : Int) + 1023 + 52).toNat = 0
    · rw [hzero] at hbits
      exact atMostByte_subnormal hbits
    · obtain ⟨hm, hq⟩ := ofFloat_of_toBits hbits
      have he : (BitVec.ofNat 11 (-(j : Int) + 1023 + 52).toNat).toNat = 1075 - j := by
        rw [BitVec.toNat_ofNat]
        omega
      have hn52 : n.log2 = 52 := by omega
      obtain ⟨hlow, hhigh⟩ := (Nat.log2_eq_iff hn.ne').1 hn52
      rw [he, if_neg (by omega)] at hm hq
      rw [BitVec.toNat_ofNat] at hm
      refine ⟨j, hj, ?_, ?_⟩ <;> omega
  · rw [if_neg hlog] at hbits
    exact atMostByte_subnormal hbits

/-! ## Channels -/

theorem lt_iff_unpack {x y : Float} : x < y ↔ x.toModel.unpack.lt y.toModel.unpack = true := by
  constructor
  · exact fun h => of_decide_eq_true h
  · exact fun h => decide_eq_true h

/-- The mantissa of a float has at most 53 digits, and its exponent leaves the largest field, which
stands for what is not finite. -/
theorem bounds_of_unpack {x : Float} {s : Sign} {m : Nat} {e : Int} {hm : 0 < m}
    (h : x.toModel.unpack = .finite s m e hm) : m < 2 ^ 53 ∧ e ≤ 971 := by
  have hlt := (@unpackExponent Format.binary64 x.toModel.toBits.toBitVec).isLt
  rcases ite_eq_iff.1 h with ⟨-, h⟩ | ⟨hmax, h⟩
  · rcases ite_eq_iff.1 h with ⟨-, h⟩ | ⟨-, h⟩ <;> cases h
  have hne : (@unpackExponent Format.binary64 x.toModel.toBits.toBitVec).toNat ≠ 2047 :=
    fun he => hmax (BitVec.eq_of_toNat_eq he)
  change _ < 2048 at hlt
  have hle : ((@unpackExponent Format.binary64 x.toModel.toBits.toBitVec).toNat : Int) - 1075 ≤
    971 := by omega
  rcases ite_eq_iff.1 h with ⟨hz, h⟩ | ⟨-, h⟩
  · rcases dite_eq_iff.1 h with ⟨_, h⟩ | ⟨_, h⟩
    · cases h
    · have hmant := (@unpackMantissa Format.binary64 x.toModel.toBits.toBitVec).isLt
      have hz := congrArg BitVec.toNat hz
      change _ = 0 at hz
      cases h
      refine ⟨hmant.trans (by decide), ?_⟩
      change ((@unpackExponent Format.binary64 _).toNat : Int) - 1075 + 1 ≤ 971
      omega
  · have hmant := (1#1 ++ @unpackMantissa Format.binary64 x.toModel.toBits.toBitVec).isLt
    cases h
    exact ⟨hmant, hle⟩

theorem unpack_of_range {x : Float} (h0 : ¬ x < 0.0) (h1 : ¬ 1.0 < x) :
    x.toModel.unpack = .notANumber ∨ (∃ s, x.toModel.unpack = .zero s) ∨
      ∃ (m k : Nat) (hm : 0 < m), x.toModel.unpack = .finite .positive m (-k) hm ∧ m ≤ 2 ^ k := by
  rw [lt_iff_unpack, show (0.0 : Float).toModel.unpack = .zero .positive from rfl] at h0
  rw [lt_iff_unpack, show (1.0 : Float).toModel.unpack =
    .finite .positive (2 ^ 52) (-52) (by decide) from rfl] at h1
  rcases hx : x.toModel.unpack with s | _ | s | ⟨s, m, e, hm⟩ <;> rw [hx] at h0 h1
  · cases s with
    | positive => exact absurd rfl h1
    | negative => exact absurd rfl h0
  · exact .inl rfl
  · exact .inr (.inl ⟨s, rfl⟩)
  · cases s with
    | negative => exact absurd rfl h0
    | positive =>
      have he : e ≤ -52 ∧ (e = -52 → m ≤ 2 ^ 52) := by
        change ¬ (some ((compare (-52) e).then (compare (2 ^ 52) m)) == some .lt) = true at h1
        simp only [beq_iff_eq, Option.some.injEq, Ordering.then_eq_lt, compare_lt_iff_lt,
          compare_eq_iff_eq] at h1
        omega
      refine .inr (.inr ⟨m, (-e).toNat, hm, ?_, ?_⟩)
      · rw [finite.injEq]
        exact ⟨rfl, rfl, by omega⟩
      · by_cases h52 : e = -52
        · subst h52
          exact he.2 rfl
        · have hlt := (bounds_of_unpack hx).1
          have hpow : 2 ^ 53 ≤ 2 ^ (-e).toNat := Nat.pow_le_pow_right Nat.two_pos (by omega)
          omega

/-- **A channel is one of 256 steps.** -/
theorem toByte_le (x : Float) : Rgba.toByte x ≤ 255 := by
  unfold Rgba.toByte Rgba.clampChannel
  split_ifs with h0 h1
  · decide +kernel
  · decide +kernel
  simp only
  split_ifs with hf
  · have h255 : (255.0 : Float).toModel.unpack =
      .finite .positive (255 * 2 ^ 45) (-45) (by decide) := by rfl
    have hmul : x * 255.0 = ⟨Float.Model.pack (UnpackedFloat.mul Format.binary64 x.toModel.unpack
        (255.0 : Float).toModel.unpack)⟩ := rfl
    rw [hmul, h255] at hf ⊢
    rcases unpack_of_range h0 h1 with hx | ⟨s, hx⟩ | ⟨m, k, hm, hx, hle⟩ <;> rw [hx] at hf ⊢
    · cases hf
    · cases s <;> decide +kernel
    · have hprod : UnpackedFloat.mul Format.binary64 (.finite .positive m (-k) hm)
          (.finite .positive (255 * 2 ^ 45) (-45) (by decide)) = roundWithAccuracy Format.binary64
            .positive (m * (255 * 2 ^ 45)) (-((k + 45 : Nat) : Int)) .exact := by
        rw [show -((k + 45 : Nat) : Int) = -(k : Int) + -45 by omega]
        rfl
      have hbound : m * (255 * 2 ^ 45) ≤ 255 * 2 ^ (k + 45) := by
        rw [Nat.pow_add, ← Nat.mul_assoc, ← Nat.mul_assoc, Nat.mul_comm m 255]
        exact Nat.mul_le_mul_right _ (Nat.mul_le_mul_left _ hle)
      rw [hprod]
      -- the product may come out one unit above 255, which rounding to an integer takes back
      rcases roundWithAccuracy_le (Nat.le_add_left 45 k) hbound .positive with hr | hr
      · rw [hr]
        decide +kernel
      · obtain ⟨n, j, hn, hj, hnj, hr⟩ := hr
        rw [hr]
        exact round_le (ofFloat_pack .positive hn hj hnj)
  · exact Nat.zero_le _

theorem toByte_channelOfByte : ∀ n ∈ List.range 256,
    Rgba.toByte (channelOfByte n) = n ∧ Rgba.inRange (channelOfByte n) = true := by
  decide +kernel

theorem channelOfByte_max : channelOfByte 255 = 1.0 := by decide +kernel

end DesignVars
