import LinkedSchema.Binary64.Shortest
import LinkedSchema.Proofs.Numbers.Rounding

namespace LinkedSchema

theorem decimalLength_pos (n : Nat) : 0 < decimalLength n :=
  Nat.length_toDigits_pos

theorem lt_ten_pow_decimalLength (n : Nat) : n < 10 ^ decimalLength n :=
  (Nat.length_toDigits_le_iff (by decide) (decimalLength_pos n)).mp (Nat.le_refl _)

theorem ten_pow_decimalLength_le {n : Nat} (h : 0 < n) : 10 ^ (decimalLength n - 1) ≤ n := by
  by_cases hl : decimalLength n - 1 = 0
  · rw [hl]
    exact h
  · have hlen := decimalLength_pos n
    have hn := (Nat.length_toDigits_le_iff (b := 10) (n := n) (k := decimalLength n - 1)
      (by decide) (by omega)).not
    exact Nat.not_lt.mp (hn.mp (Nat.not_le.mpr (Nat.sub_lt hlen (by decide))))

namespace Decimal

/-- No digit is a trailing zero, and a zero has the exponent zero. -/
def Normal (d : Decimal) : Prop :=
  d.digits % 10 = 0 → d.digits = 0 ∧ d.exponent = 0

/-- The value without its sign. -/
def absValue (d : Decimal) : ℚ :=
  d.digits * 10 ^ d.exponent

theorem stripZeros_mul {digits : Nat} (h : digits % 10 ≠ 0) {count most : Nat}
    (hm : count ≤ most) (exponent : Int) :
    stripZeros most (digits * 10 ^ count) exponent = (digits, exponent + count) := by
  induction count generalizing most exponent with
  | zero => cases most <;> simp [stripZeros, h]
  | succ count ih =>
    cases most with
    | zero => omega
    | succ most =>
      have hz : digits * 10 ^ (count + 1) % 10 = 0 := by
        rw [Nat.pow_succ, ← Nat.mul_assoc, Nat.mul_mod_left]
      have hd : digits * 10 ^ (count + 1) / 10 = digits * 10 ^ count := by
        rw [Nat.pow_succ, ← Nat.mul_assoc, Nat.mul_div_cancel _ (by decide)]
      rw [stripZeros, if_pos hz, hd, ih (by omega)]
      congr 1
      push_cast
      ring

/-- A positive number is its digits without trailing zeros followed by these. -/
theorem exists_trailing {n : Nat} (h : 0 < n) :
    ∃ digits count, n = digits * 10 ^ count ∧ digits % 10 ≠ 0 := by
  induction n using Nat.strongRecOn with
  | ind n ih =>
    by_cases hz : n % 10 = 0
    · obtain ⟨digits, count, hn, hd⟩ := ih (n / 10) (by omega) (by omega)
      refine ⟨digits, count + 1, ?_, hd⟩
      rw [Nat.pow_succ, ← Nat.mul_assoc, ← hn]
      omega
    · exact ⟨n, 0, by rw [Nat.pow_zero, Nat.mul_one], hz⟩

theorem le_decimalLength {digits count : Nat} (h : digits % 10 ≠ 0) :
    count ≤ decimalLength (digits * 10 ^ count) := by
  have hp : 10 ^ count ≤ digits * 10 ^ count := Nat.le_mul_of_pos_left _ (by omega)
  have hl := (Nat.pow_lt_pow_iff_right (a := 10) (by decide)).mp
    (hp.trans_lt (lt_ten_pow_decimalLength (digits * 10 ^ count)))
  exact hl.le

/-- Trailing zeros go into the exponent. -/
theorem normalize_mul {digits : Nat} (h : digits % 10 ≠ 0) (negative : Bool) (count : Nat)
    (exponent : Int) :
    normalize ⟨negative, digits * 10 ^ count, exponent⟩ =
      ⟨negative, digits, exponent + count⟩ := by
  have hn : digits * 10 ^ count ≠ 0 := Nat.mul_ne_zero (by omega) (by positivity)
  simp only [normalize, if_neg hn, stripZeros_mul h (le_decimalLength h)]

/-- Zeros that are appended to the digits are stripped again. -/
theorem normalize_appended {d : Decimal} (h : d.Normal) (count : Nat) :
    normalize ⟨d.negative, d.digits * 10 ^ count, d.exponent - count⟩ = d := by
  obtain ⟨negative, digits, exponent⟩ := d
  by_cases hz : digits % 10 = 0
  · obtain ⟨hd, he⟩ := h hz
    simp only at hd he
    subst hd he
    simp [normalize]
  · rw [normalize_mul hz, Int.sub_add_cancel]

theorem normalize_of_normal {d : Decimal} (h : d.Normal) : d.normalize = d := by
  simpa using normalize_appended h 0

theorem normal_normalize (d : Decimal) : d.normalize.Normal := by
  obtain ⟨negative, digits, exponent⟩ := d
  by_cases hz : digits = 0
  · subst hz
    exact fun _ => ⟨rfl, rfl⟩
  · obtain ⟨rest, count, rfl, hr⟩ := exists_trailing (Nat.pos_of_ne_zero hz)
    rw [normalize_mul hr]
    exact fun h => absurd h hr

@[simp] theorem negative_normalize (d : Decimal) : d.normalize.negative = d.negative := by
  unfold normalize
  split <;> rfl

theorem absValue_normalize (d : Decimal) : d.normalize.absValue = d.absValue := by
  obtain ⟨negative, digits, exponent⟩ := d
  by_cases hz : digits = 0
  · subst hz
    simp [normalize, absValue]
  · obtain ⟨rest, count, rfl, hr⟩ := exists_trailing (Nat.pos_of_ne_zero hz)
    rw [normalize_mul hr, absValue, absValue, zpow_add₀ (by norm_num), zpow_natCast]
    push_cast
    ring

/-- The powers of ten between which a positive decimal number lies. -/
theorem ten_zpow_leadingExponent_le {d : Decimal} (h : 0 < d.digits) :
    (10 : ℚ) ^ d.leadingExponent ≤ d.absValue := by
  have hl := ten_pow_decimalLength_le h
  have hp := decimalLength_pos d.digits
  have he : d.leadingExponent = (decimalLength d.digits - 1 : Nat) + d.exponent := by
    unfold leadingExponent
    omega
  rw [he, zpow_add₀ (by norm_num), zpow_natCast, absValue]
  exact mul_le_mul_of_nonneg_right (by exact_mod_cast hl) (by positivity)

theorem absValue_lt_ten_zpow (d : Decimal) : d.absValue < (10 : ℚ) ^ (d.leadingExponent + 1) := by
  have hl := lt_ten_pow_decimalLength d.digits
  have he : d.leadingExponent + 1 = decimalLength d.digits + d.exponent := by
    unfold leadingExponent
    omega
  rw [he, zpow_add₀ (by norm_num), zpow_natCast, absValue]
  exact mul_lt_mul_of_pos_right (by exact_mod_cast hl) (by positivity)

end Decimal

namespace Binary64

theorem two_zpow_lt_ten_zpow : (2 : ℚ) ^ (1200 : Int) < 10 ^ (400 : Int) := by
  have he : (1200 : Int) = 3 * 400 := rfl
  rw [he, zpow_mul]
  exact zpow_lt_zpow_left₀ (by norm_num) (by norm_num) (by norm_num)

theorem absValue_lt {x : Binary64} (h : x.isFinite = true) :
    x.absValue < (10 : ℚ) ^ (400 : Int) := by
  have hs : (x.significand : ℚ) < 2 ^ (53 : Int) := by exact_mod_cast x.significand_lt
  have hp : (2 : ℚ) ^ x.scale ≤ 2 ^ (971 : Int) :=
    zpow_le_zpow_right₀ (by norm_num) (scale_le h)
  calc x.absValue = x.significand * 2 ^ x.scale := rfl
    _ ≤ x.significand * 2 ^ (971 : Int) := mul_le_mul_of_nonneg_left hp (Nat.cast_nonneg _)
    _ ≤ 2 ^ (53 : Int) * 2 ^ (971 : Int) :=
        mul_le_mul_of_nonneg_right hs.le (zpow_pos (by norm_num) _).le
    _ = 2 ^ (1024 : Int) := by rw [← zpow_add₀ (by norm_num)]; rfl
    _ ≤ 2 ^ (1200 : Int) := zpow_le_zpow_right₀ (by norm_num) (by norm_num)
    _ < 10 ^ (400 : Int) := two_zpow_lt_ten_zpow

theorem lt_absValue {x : Binary64} (h : 0 < x.significand) :
    (10 : ℚ) ^ (-400 : Int) < x.absValue := by
  have hs : (1 : ℚ) ≤ x.significand := by exact_mod_cast h
  have hp : (2 : ℚ) ^ (-1200 : Int) ≤ 2 ^ x.scale :=
    zpow_le_zpow_right₀ (by norm_num) (by have := neg_1074_le_scale x; omega)
  calc (10 : ℚ) ^ (-400 : Int) = (10 ^ (400 : Int))⁻¹ := zpow_neg ..
    _ < (2 ^ (1200 : Int))⁻¹ := inv_strictAnti₀ (by positivity) two_zpow_lt_ten_zpow
    _ = 2 ^ (-1200 : Int) := (zpow_neg ..).symm
    _ ≤ 2 ^ x.scale := hp
    _ ≤ x.significand * 2 ^ x.scale := le_mul_of_one_le_left (by positivity) hs

theorem significand_eq_zero_iff (x : Binary64) : x.significand = 0 ↔ x.isZero = true := by
  have hm := x.magnitude_eq
  have hz : x.isZero = true ↔ x.magnitude = 0 := by simp [isZero]
  have hc : 0 < fractionCount := by decide
  rw [hz]
  unfold significand
  by_cases he : x.exponentField = 0
  · rw [if_pos he, hm, he]
    omega
  · have := Nat.mul_le_mul_right fractionCount (Nat.pos_of_ne_zero he)
    rw [if_neg he]
    omega

end Binary64

namespace Decimal

/-- A decimal number whose value is that of a positive finite number reads back as that number. -/
theorem toBinary64?_eq {d : Decimal} {x : Binary64} (hf : x.isFinite = true)
    (hx : 0 < x.significand) (hn : d.negative = x.isNegative) (hv : d.absValue = x.absValue) :
    d.toBinary64? = some x := by
  have hpos : 0 < d.digits := by
    apply Nat.pos_of_ne_zero
    intro h
    have hz := (Binary64.lt_absValue hx).trans_eq hv.symm
    rw [absValue, h, Nat.cast_zero, zero_mul] at hz
    exact absurd hz (zpow_pos (by norm_num) _).not_gt
  have hten : (1 : ℚ) < 10 := by norm_num
  have hhigh : d.leadingExponent < 400 := (zpow_lt_zpow_iff_right₀ hten).mp
    ((ten_zpow_leadingExponent_le hpos).trans_lt (hv ▸ Binary64.absValue_lt hf))
  have hlow : -400 < d.leadingExponent + 1 := (zpow_lt_zpow_iff_right₀ hten).mp
    ((hv ▸ Binary64.lt_absValue hx).trans d.absValue_lt_ten_zpow)
  have hpower : 0 < Nat.pow 10 d.exponent.natAbs := Nat.pow_pos (by decide)
  rw [toBinary64?, if_neg (by omega), if_neg (by omega), if_neg (by omega), hn]
  by_cases he : 0 ≤ d.exponent
  · have hz : d.exponent = (d.exponent.natAbs : Int) := by omega
    rw [if_pos he]
    apply Binary64.ofRatio?_eq hf (Nat.mul_pos hpos hpower) (by decide)
    rw [← hv, absValue]
    conv_rhs => rw [hz, zpow_natCast]
    simp
  · have hz : d.exponent = -(d.exponent.natAbs : Int) := by omega
    rw [if_neg he]
    apply Binary64.ofRatio?_eq hf hpos hpower
    rw [← hv, absValue]
    conv_rhs => rw [hz, zpow_neg, zpow_natCast]
    simp [div_eq_mul_inv]

end Decimal

namespace Binary64

theorem negative_exactDecimal (x : Binary64) : x.exactDecimal.negative = x.isNegative := by
  unfold exactDecimal
  split <;> exact Decimal.negative_normalize _

theorem absValue_exactDecimal (x : Binary64) : x.exactDecimal.absValue = x.absValue := by
  unfold exactDecimal
  by_cases hs : x.scale < 0
  · have hp : (5 : ℚ) ^ x.scale.natAbs * 10 ^ x.scale = 2 ^ x.scale := by
      have hz : x.scale = -(x.scale.natAbs : Int) := by omega
      have hten : (10 : ℚ) ^ x.scale.natAbs = 5 ^ x.scale.natAbs * 2 ^ x.scale.natAbs := by
        rw [← mul_pow]
        norm_num
      rw [hz, zpow_neg, zpow_neg, zpow_natCast, zpow_natCast, Int.natAbs_neg, Int.natAbs_natCast,
        hten, mul_inv]
      exact mul_inv_cancel_left₀ (by positivity) _
    rw [if_pos hs, Decimal.absValue_normalize, Decimal.absValue, absValue, ← hp, Nat.pow_eq]
    push_cast
    ring
  · have hz : x.scale = (x.scale.natAbs : Int) := by omega
    rw [if_neg hs, Decimal.absValue_normalize, Decimal.absValue, absValue]
    conv_rhs => rw [hz, zpow_natCast]
    simp

theorem normal_exactDecimal (x : Binary64) : x.exactDecimal.Normal := by
  unfold exactDecimal
  split <;> exact Decimal.normal_normalize _

theorem readableWith_spec {x : Binary64} {places : Nat} {d : Decimal}
    (h : x.readableWith places = some d) : d.Normal ∧ d.toBinary64? = some x := by
  have hm := List.mem_of_find?_eq_some h
  have hr := List.find?_some h
  obtain ⟨candidate, _, rfl⟩ := List.mem_map.mp hm
  exact ⟨Decimal.normal_normalize candidate, by simpa using hr⟩

/-- The shortest decimal number reads back, and it has no trailing zeros. -/
theorem shortest_spec {x : Binary64} (hf : x.isFinite = true) :
    x.shortest.Normal ∧ x.shortest.toBinary64? = some x := by
  unfold shortest
  by_cases hz : x.isZero = true
  · have hm : x.magnitude = 0 := by simpa [isZero] using hz
    rw [if_pos hz]
    refine ⟨fun _ => ⟨rfl, rfl⟩, ?_⟩
    rw [Decimal.toBinary64?, if_pos rfl, ← hm, ofMagnitude_magnitude]
  · have hpos : 0 < x.significand := Nat.pos_of_ne_zero fun h =>
      hz ((significand_eq_zero_iff x).mp h)
    rw [if_neg hz]
    cases hr : (List.range 17).findSome? fun n => x.readableWith (n + 1) with
    | some d =>
      obtain ⟨n, _, hd⟩ := List.exists_of_findSome?_eq_some hr
      exact readableWith_spec hd
    | none =>
      exact ⟨normal_exactDecimal x, Decimal.toBinary64?_eq hf hpos (negative_exactDecimal x)
        (absValue_exactDecimal x)⟩

end Binary64

end LinkedSchema
