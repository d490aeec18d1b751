import DesignVars.Classification
import DesignVars.Proofs.Color.Byte
import DesignVars.Proofs.Css.Token

/-!
# Colors in hexadecimal

* `Rgba.rounded`: a color with its channels at the nearest steps;
* `hexColor?_hexDigits`, `hex_rounded`: the digits of a color are read as its rounded form, which
  has the same digits;
* **`classify_hex`**, **`classifyMode_hex`**: so a hexadecimal color is read as the rounded one
  wherever it stands.
-/

namespace DesignVars

open Text Css Decimal

/-! ## Digits -/

theorem hexPair_spec : ∀ n ∈ List.range 256,
    byteOfPair? (Nat.digitChar (n / 16)) (Nat.digitChar (n % 16)) = some n ∧
      (Rgba.hexPair n).all isNameLetter = true := by
  decide +kernel

namespace Rgba

/-- The color with each channel at the nearest of the 256 steps. -/
def rounded (c : Rgba) : Rgba :=
  ⟨channelOfByte (toByte c.r), channelOfByte (toByte c.g), channelOfByte (toByte c.b),
    channelOfByte (toByte c.a)⟩

theorem toByte_mem_range (x : Float) : toByte x ∈ List.range 256 :=
  List.mem_range.2 (Nat.lt_succ_of_le (toByte_le x))

theorem toByte_rounded (x : Float) : toByte (channelOfByte (toByte x)) = toByte x :=
  (toByte_channelOfByte _ (toByte_mem_range x)).1

theorem hex_rounded (c : Rgba) : c.rounded.hex = c.hex := by
  simp only [hex, rounded, toByte_rounded]

theorem clamp_rounded (c : Rgba) : c.rounded.clamp = c.rounded := by
  have h (x : Float) : inRange (channelOfByte (toByte x)) = true :=
    (toByte_channelOfByte _ (toByte_mem_range x)).2
  have hd : c.rounded.isDisplayable = true := by simp [isDisplayable, rounded, h]
  rw [clamp, if_pos hd]

/-- The digits of a color, those of its opacity only if it is not opaque. -/
def hexDigits (c : Rgba) : List Char :=
  hexPair (toByte c.r) ++ hexPair (toByte c.g) ++ hexPair (toByte c.b) ++
    if toByte c.a = 255 then [] else hexPair (toByte c.a)

variable (c : Rgba)

theorem toList_hex : c.hex.toList = '#' :: c.hexDigits := String.toList_ofList

theorem hexDigits_ne_nil : c.hexDigits ≠ [] := List.cons_ne_nil _ _

theorem isNameLetter_hexDigits : ∀ d ∈ c.hexDigits, isNameLetter d = true := by
  have h (x : Float) : ∀ d ∈ hexPair (toByte x), isNameLetter d = true :=
    List.all_eq_true.1 (hexPair_spec _ (toByte_mem_range x)).2
  intro d hd
  simp only [hexDigits, List.mem_append] at hd
  rcases hd with ((hd | hd) | hd) | hd
  · exact h c.r d hd
  · exact h c.g d hd
  · exact h c.b d hd
  · split_ifs at hd
    · cases hd
    · exact h c.a d hd

theorem hexColor?_hexDigits : hexColor? c.hexDigits = some c.rounded := by
  have h (x : Float) : byteOfPair? (Nat.digitChar (toByte x / 16)) (Nat.digitChar (toByte x % 16)) =
      some (toByte x) := (hexPair_spec _ (toByte_mem_range x)).1
  unfold hexDigits
  split_ifs with ha
  · have hr : c.rounded = .ofBytes (toByte c.r) (toByte c.g) (toByte c.b) := by
      rw [rounded, ha, channelOfByte_max, ofBytes]
    simp [hexPair, hexColor?, h, hr]
  · simp [hexPair, hexColor?, h, rounded, ofBytes]

end Rgba

/-! ## Reading -/

section Hex

variable (c : Rgba)

theorem trim_hex : trim ('#' :: c.hexDigits) = '#' :: c.hexDigits := by
  refine trim_of_not_blank fun d hd => ?_
  rcases List.mem_cons.1 hd with rfl | hd
  · decide
  · exact (isPlain_of_isNameLetter (c.isNameLetter_hexDigits d hd)).2.1

theorem trimmed_hex : trimmed c.hex = c.hex := by
  rw [trimmed, c.toList_hex, trim_hex, ← c.toList_hex, String.ofList_toList]

theorem readColor?_hex : readColor? c.hex = some c.rounded := by
  rw [readColor?, c.toList_hex, trim_hex]
  exact c.hexColor?_hexDigits

theorem colorLiteral?_hex : colorLiteral? c.hex = some (.concrete (.color c.rounded)) := by
  rw [colorLiteral?, readColor?_hex, Option.map_some, c.clamp_rounded]

theorem aliasOf?_hex : aliasOf? c.hex = none := by
  rw [aliasOf?, c.toList_hex]
  rfl

theorem plainNumber?_hex : plainNumber? c.hex = none := by
  rw [plainNumber?, c.toList_hex]
  rfl

theorem measure?_hex : measure? c.hex = none := by
  have hr : (('#' :: c.hexDigits).reverse.dropWhile isUnitLetter).reverse =
      '#' :: (c.hexDigits.reverse.dropWhile isUnitLetter).reverse := by
    have hstop : ['#'].dropWhile isUnitLetter = ['#'] := by decide
    rw [List.reverse_cons, List.dropWhile_append, hstop]
    split_ifs with he
    · rw [List.isEmpty_iff.1 he]
      rfl
    · rw [List.reverse_append]
      rfl
  rw [measure?, c.toList_hex]
  simp only [hr]
  split_ifs <;> rfl

theorem lightDark?_hex : lightDark? c.hex = none := by
  have hb : lightDarkBody? ('#' :: c.hexDigits) = none := by
    have hlen : lightDarkHead.length = 11 := by decide
    have hhead : lower ('#' :: c.hexDigits.take 10) ≠ lightDarkHead := by
      intro he
      have h := congrArg List.head? he
      rw [lower, List.map_cons, List.head?_cons, show lightDarkHead.head? = some 'l' by decide] at h
      exact absurd h (by decide)
    rw [lightDarkBody?, List.splitAt_eq, hlen]
    simp only [List.take_succ_cons, hhead, decide_false, Bool.false_and, Bool.false_eq_true,
      if_false]
  rw [lightDark?, c.toList_hex, hb]
  rfl

theorem parse?_hex : Expression.parse? c.hex = none := by
  have hc : components c.hex = [.token (.hash (String.ofList c.hexDigits))] := by
    rw [components, c.toList_hex, tokens_hash c.hexDigits_ne_nil c.isNameLetter_hexDigits]
    rfl
  rw [Expression.parse?, trimmed_hex, callBody?, hc]
  rfl

/-- **A hexadecimal color at the top level is the rounded color.** -/
theorem classify_hex (lookup : Lookup) :
    classify lookup c.hex = some (.single (.concrete (.color c.rounded))) := by
  simp only [classify, classifyColor, trimmed_hex, aliasOf?_hex, plainNumber?_hex, measure?_hex,
    lightDark?_hex, parse?_hex, colorLiteral?_hex, Option.map_some]

/-- **And so it is in a mode block.** -/
theorem classifyMode_hex : classifyMode c.hex = some (.concrete (.color c.rounded)) := by
  simp only [classifyMode, trimmed_hex, aliasOf?_hex, colorLiteral?_hex]

end Hex

end DesignVars
