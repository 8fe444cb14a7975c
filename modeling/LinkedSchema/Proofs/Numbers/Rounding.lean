import LinkedSchema.Binary64.Rounding
import Mathlib.Algebra.Order.Field.Power
import Mathlib.Data.Rat.Cast.Order
import Mathlib.Tactic.FieldSimp
import Mathlib.Tactic.Linarith
import Mathlib.Tactic.NormNum
import Mathlib.Tactic.Ring

namespace LinkedSchema

/-- A quotient without a remainder needs no rounding. -/
theorem roundQuotient_mul {denominator : Nat} (h : 0 < denominator) (n : Nat) :
    roundQuotient (n * denominator) denominator = n := by
  have hm : n * denominator % denominator = 0 := Nat.mul_mod_left ..
  have hd : n * denominator / denominator = n := Nat.mul_div_cancel _ h
  rw [roundQuotient, hm, hd, if_pos (by omega)]

section Ratios

variable {numerator denominator : Nat}

theorem scaledQuotient_eq (hd : 0 < denominator) {n : Nat} {scale : Int}
    (h : (numerator : ℚ) / denominator = n * 2 ^ scale) :
    scaledQuotient numerator denominator scale = n := by
  have hq : (denominator : ℚ) ≠ 0 := by positivity
  have hn : (numerator : ℚ) = n * 2 ^ scale * denominator := by
    rwa [div_eq_iff hq] at h
  unfold scaledQuotient
  by_cases hs : scale < 0
  · have he : numerator * Nat.pow 2 scale.natAbs = n * denominator := by
      have hz : scale = -(scale.natAbs : Int) := by omega
      have hp : (2 : ℚ) ^ scale.natAbs ≠ 0 := by positivity
      rw [hz, zpow_neg, zpow_natCast] at hn
      have : (numerator * 2 ^ scale.natAbs : ℚ) = n * denominator := by
        rw [hn]
        field_simp
      exact_mod_cast this
    rw [if_pos hs, he, roundQuotient_mul hd]
  · have he : numerator = n * (denominator * Nat.pow 2 scale.natAbs) := by
      have hz : scale = (scale.natAbs : Int) := by omega
      rw [hz, zpow_natCast] at hn
      have : (numerator : ℚ) = n * (denominator * 2 ^ scale.natAbs) := by
        rw [hn]
        ring
      exact_mod_cast this
    have hp : 0 < denominator * Nat.pow 2 scale.natAbs := Nat.mul_pos hd (Nat.two_pow_pos _)
    rw [if_neg hs, he, roundQuotient_mul hp]

theorem natCast_lt_two_zpow_log2 (n : Nat) : (n : ℚ) < 2 ^ ((n.log2 : Int) + 1) := by
  have h : n < 2 ^ (n.log2 + 1) := Nat.lt_log2_self
  exact_mod_cast h

theorem two_zpow_log2_le {n : Nat} (h : 0 < n) : (2 : ℚ) ^ (n.log2 : Int) ≤ n := by
  have h : 2 ^ n.log2 ≤ n := Nat.log2_self_le (Nat.pos_iff_ne_zero.mp h)
  exact_mod_cast h

theorem ratio_lt_two_zpow (hd : 0 < denominator) :
    (numerator : ℚ) / denominator < 2 ^ ((numerator.log2 : Int) - denominator.log2 + 1) := by
  have hq : (0 : ℚ) < denominator := by exact_mod_cast hd
  have hb := two_zpow_log2_le hd
  have hp : (0 : ℚ) < 2 ^ (denominator.log2 : Int) := by positivity
  have he : (numerator.log2 : Int) - denominator.log2 + 1 =
      (numerator.log2 + 1 : Int) - denominator.log2 := by ring
  calc (numerator : ℚ) / denominator
      ≤ numerator / 2 ^ (denominator.log2 : Int) :=
        div_le_div_of_nonneg_left (Nat.cast_nonneg _) hp hb
    _ < 2 ^ ((numerator.log2 : Int) + 1) / 2 ^ (denominator.log2 : Int) :=
        div_lt_div_of_pos_right (natCast_lt_two_zpow_log2 numerator) hp
    _ = 2 ^ ((numerator.log2 : Int) - denominator.log2 + 1) := by
        rw [he, zpow_sub₀ (by norm_num)]

theorem two_zpow_lt_ratio (hn : 0 < numerator) (hd : 0 < denominator) :
    (2 : ℚ) ^ ((numerator.log2 : Int) - denominator.log2 - 1) ≤ numerator / denominator := by
  have hq : (0 : ℚ) < denominator := by exact_mod_cast hd
  have hp : (0 : ℚ) < 2 ^ (numerator.log2 : Int) := by positivity
  have he : (numerator.log2 : Int) - denominator.log2 - 1 =
      (numerator.log2 : Int) - (denominator.log2 + 1 : Int) := by ring
  calc (2 : ℚ) ^ ((numerator.log2 : Int) - denominator.log2 - 1)
      = 2 ^ (numerator.log2 : Int) / 2 ^ (denominator.log2 + 1 : Int) := by
        rw [he, zpow_sub₀ (by norm_num)]
    _ ≤ 2 ^ (numerator.log2 : Int) / denominator :=
        div_le_div_of_nonneg_left hp.le hq (natCast_lt_two_zpow_log2 denominator).le
    _ ≤ numerator / denominator := div_le_div_of_nonneg_right (two_zpow_log2_le hn) hq.le

/-- The comparison of a power of two with a ratio, in whole numbers. -/
theorem two_zpow_le_ratio_iff (hd : 0 < denominator) (e : Int) :
    (2 : ℚ) ^ e ≤ numerator / denominator ↔
      if e < 0 then denominator ≤ numerator * Nat.pow 2 e.natAbs
      else denominator * Nat.pow 2 e.natAbs ≤ numerator := by
  have hq : (0 : ℚ) < denominator := by exact_mod_cast hd
  rw [le_div_iff₀ hq]
  by_cases hs : e < 0
  · have hp : (0 : ℚ) < 2 ^ e.natAbs := by positivity
    have hz : (2 : ℚ) ^ e = (2 ^ e.natAbs)⁻¹ := by
      rw [← zpow_natCast, ← zpow_neg]
      congr 1
      omega
    rw [if_pos hs, hz, inv_mul_le_iff₀ hp, mul_comm]
    exact_mod_cast Iff.rfl
  · have hz : (2 : ℚ) ^ e = 2 ^ e.natAbs := by
      rw [← zpow_natCast]
      congr 1
      omega
    rw [if_neg hs, hz, mul_comm]
    exact_mod_cast Iff.rfl

/-- The powers of two between which a ratio lies. -/
theorem floorLog2_spec (hn : 0 < numerator) (hd : 0 < denominator) :
    (2 : ℚ) ^ floorLog2 numerator denominator ≤ numerator / denominator ∧
      (numerator : ℚ) / denominator < 2 ^ (floorLog2 numerator denominator + 1) := by
  have hiff : (2 : ℚ) ^ ((numerator.log2 : Int) - denominator.log2) ≤ numerator / denominator ↔ _ :=
    two_zpow_le_ratio_iff hd _
  have habove : (numerator : ℚ) / denominator < _ := ratio_lt_two_zpow hd
  have hbelow := two_zpow_lt_ratio hn hd
  unfold floorLog2
  generalize (numerator.log2 : Int) - denominator.log2 = guess at *
  by_cases hr : (2 : ℚ) ^ guess ≤ numerator / denominator
  · have hreached : (if guess < 0 then decide (denominator ≤ numerator * Nat.pow 2 guess.natAbs)
        else decide (denominator * Nat.pow 2 guess.natAbs ≤ numerator)) = true := by
      have h := hiff.mp hr
      split at h <;> simp_all
    simp only [hreached, ↓reduceIte]
    exact ⟨hr, habove⟩
  · have hreached : (if guess < 0 then decide (denominator ≤ numerator * Nat.pow 2 guess.natAbs)
        else decide (denominator * Nat.pow 2 guess.natAbs ≤ numerator)) = false := by
      have h := fun hc => hr (hiff.mpr hc)
      split <;> simp_all
    simp only [hreached, Bool.false_eq_true, ↓reduceIte, sub_add_cancel]
    exact ⟨hbelow, not_le.mp hr⟩

/-- The greatest power of two below a ratio that is given as a product. -/
theorem floorLog2_lt (hn : 0 < numerator) (hd : 0 < denominator) {e : Int}
    (h : (numerator : ℚ) / denominator < 2 ^ e) : floorLog2 numerator denominator < e :=
  (zpow_lt_zpow_iff_right₀ (by norm_num)).mp ((floorLog2_spec hn hd).1.trans_lt h)

theorem le_floorLog2 (hn : 0 < numerator) (hd : 0 < denominator) {e : Int}
    (h : (2 : ℚ) ^ e ≤ numerator / denominator) : e ≤ floorLog2 numerator denominator := by
  have hl := (zpow_lt_zpow_iff_right₀ (a := (2 : ℚ)) (by norm_num)).mp
    (h.trans_lt (floorLog2_spec hn hd).2)
  omega

end Ratios

namespace Binary64

theorem magnitude_eq (x : Binary64) :
    x.magnitude = x.exponentField * fractionCount + x.fraction :=
  (Nat.div_add_mod' ..).symm

theorem ofMagnitude_magnitude (x : Binary64) : ofMagnitude x.isNegative x.magnitude = x := by
  obtain ⟨bits⟩ := x
  have hlt : bits.toNat < 18446744073709551616 := bits.toNat_lt
  have hm : (UInt64.ofNat (bits.toNat % magnitudeCount)).toNat =
      bits.toNat % 9223372036854775808 := by
    rw [UInt64.toNat_ofNat', magnitudeCount]
    omega
  have hs : (0x8000000000000000 : UInt64).toNat = 9223372036854775808 := rfl
  unfold ofMagnitude isNegative magnitude
  congr 1
  apply UInt64.toNat_inj.mp
  rw [UInt64.toNat_add, hm]
  by_cases hn : bits ≥ 0x8000000000000000
  · have hge : 9223372036854775808 ≤ bits.toNat := UInt64.le_iff_toNat_le.mp hn
    rw [if_pos (decide_eq_true hn), hs]
    omega
  · have hl : bits.toNat < 9223372036854775808 := by
      rw [ge_iff_le, UInt64.le_iff_toNat_le, hs] at hn
      omega
    rw [if_neg (by simpa using hn)]
    change (0 + _) % _ = _
    omega

theorem fraction_lt (x : Binary64) : x.fraction < fractionCount :=
  Nat.mod_lt _ (by decide)

theorem exponentField_lt {x : Binary64} (h : x.isFinite = true) : x.exponentField < topField := by
  simpa [isFinite] using h

theorem magnitude_lt_of_finite {x : Binary64} (h : x.isFinite = true) :
    x.magnitude < topField * fractionCount := by
  have hf := x.fraction_lt
  have he := exponentField_lt h
  have hm := Nat.mul_le_mul_right fractionCount (Nat.succ_le_of_lt he)
  rw [Nat.succ_mul] at hm
  have := x.magnitude_eq
  omega

theorem neg_1074_le_scale (x : Binary64) : -1074 ≤ x.scale := by
  unfold scale
  split <;> omega

theorem scale_le {x : Binary64} (h : x.isFinite = true) : x.scale ≤ 971 := by
  have he := exponentField_lt h
  unfold topField at he
  unfold scale
  split <;> omega

theorem significand_lt (x : Binary64) : x.significand < 2 * fractionCount := by
  have hf := x.fraction_lt
  unfold significand
  split <;> omega

/-- Only at the least scale has a significand less than its full number of bits. -/
theorem fractionCount_le_significand {x : Binary64} (h : -1074 < x.scale) :
    fractionCount ≤ x.significand := by
  unfold scale at h
  unfold significand
  split
  · rename_i he
    rw [if_pos he] at h
    omega
  · omega

/-- The bits of a number are its significand above the bits of the least number of its scale. -/
theorem magnitude_eq_of_scale (x : Binary64) :
    (x.scale + 1074).toNat * fractionCount + x.significand = x.magnitude := by
  have hm := x.magnitude_eq
  unfold scale significand
  by_cases he : x.exponentField = 0
  · rw [if_pos he, if_pos he, hm, he]
    norm_num
  · have hf : x.exponentField = ((x.exponentField : Int) - 1075 + 1074).toNat + 1 := by omega
    rw [if_neg he, if_neg he, hm]
    conv_rhs => rw [hf]
    ring

/-- The value of a finite number without its sign. -/
def absValue (x : Binary64) : ℚ :=
  x.significand * 2 ^ x.scale

/-- The scale of a positive number is the one at which its value is rounded. -/
theorem scale_eq_of_ratio {x : Binary64} {numerator denominator : Nat} (hn : 0 < numerator)
    (hd : 0 < denominator) (h : (numerator : ℚ) / denominator = x.absValue) :
    max (floorLog2 numerator denominator - 52) (-1074) = x.scale := by
  have hp : (0 : ℚ) < 2 ^ x.scale := by positivity
  have hlt : floorLog2 numerator denominator < x.scale + 53 := by
    apply floorLog2_lt hn hd
    have hs : (x.significand : ℚ) < 2 ^ 53 := by exact_mod_cast x.significand_lt
    rw [h, absValue, zpow_add₀ (by norm_num), mul_comm]
    exact mul_lt_mul_of_pos_left (by exact_mod_cast hs) hp
  rcases (neg_1074_le_scale x).lt_or_eq with hs | hs
  · have hle : x.scale + 52 ≤ floorLog2 numerator denominator := by
      apply le_floorLog2 hn hd
      have hf : (2 : ℚ) ^ 52 ≤ x.significand := by
        exact_mod_cast fractionCount_le_significand hs
      rw [h, absValue, zpow_add₀ (by norm_num), mul_comm]
      exact mul_le_mul_of_nonneg_right (by exact_mod_cast hf) hp.le
    omega
  · omega

/-- A ratio that is the value of a number is rounded to that number. -/
theorem ofRatio?_eq {x : Binary64} {numerator denominator : Nat} (hf : x.isFinite = true)
    (hn : 0 < numerator) (hd : 0 < denominator)
    (h : (numerator : ℚ) / denominator = x.absValue) :
    ofRatio? x.isNegative numerator denominator = some x := by
  have hm : roundMagnitude numerator denominator = x.magnitude := by
    simp only [roundMagnitude, scale_eq_of_ratio hn hd h, scaledQuotient_eq hd h]
    exact magnitude_eq_of_scale x
  simp only [ofRatio?, if_neg (Nat.pos_iff_ne_zero.mp hn), hm, if_pos (magnitude_lt_of_finite hf),
    ofMagnitude_magnitude]

end Binary64

end LinkedSchema
