import Reckoner.Number.Expansion
import Reckoner.Proofs.DecimalRounding
import Reckoner.Proofs.PowersOfTen

/-! The decimal expansion of a dyadic: its digits are those of the number itself, cut off toward zero, and
there are as many of them as the precision is worth. -/

namespace Reckoner

theorem bitLength_bounds {n : Nat} (h : n ≠ 0) : 2 ^ (bitLength n - 1) ≤ n ∧ n < 2 ^ bitLength n := by
  rw [bitLength, if_neg h]
  exact ⟨Nat.log2_self_le h, Nat.lt_log2_self⟩

theorem one_le_bitLength {n : Nat} (h : n ≠ 0) : 1 ≤ bitLength n := by
  rw [bitLength, if_neg h]
  exact Nat.le_add_left 1 _

private theorem two_pow_bitLength_floor_le {z : ℚ} (hz : 1 ≤ z) : (2 : ℚ) ^ (bitLength ⌊z⌋₊ - 1) ≤ z := by
  obtain ⟨hbits, -⟩ := bitLength_bounds (Nat.floor_pos.2 hz).ne'
  calc (2 : ℚ) ^ (bitLength ⌊z⌋₊ - 1) ≤ ⌊z⌋₊ := by exact_mod_cast hbits
    _ ≤ z := Nat.floor_le (by linarith)

theorem nearestQuotient_le (n d : Nat) : nearestQuotient n d ≤ n / d + 1 := by
  simp only [nearestQuotient]
  split
  · omega
  · split <;> omega

namespace Binary
variable {p : Nat} {x : Dyadic}

theorem toRat_abs (x : Dyadic) : (abs x).toRat = |x.toRat| := by
  rw [abs]
  split
  · rename_i h
    rw [Dyadic.toRat_neg, abs_of_neg (isNegative_iff.1 h)]
  · rename_i h
    rw [abs_of_nonneg (not_lt.1 fun hneg => h (isNegative_iff.2 hneg))]

theorem magnitude_abs (x : Dyadic) : magnitude (abs x) = magnitude x := by
  rw [abs]
  split
  · cases x with
    | zero => rfl
    | ofOdd n k h => simp [magnitude, Dyadic.neg_ofOdd]
  · rfl

theorem nearest_of_fits (h : Fits p x) : nearest p x = x := by
  cases x with
  | zero => rfl
  | ofOdd n k hn =>
    have : bitLength n.natAbs - p = 0 := Nat.sub_eq_zero_of_le h
    simp [nearest, this]

/-- The magnitude is the exponent of the least power of two above a number. -/
theorem magnitude_bounds (h : x ≠ 0) :
    2 ^ (magnitude x - 1) ≤ |x.toRat| ∧ |x.toRat| < 2 ^ magnitude x := by
  cases x with
  | zero => exact absurd rfl h
  | ofOdd n k hn =>
    have hne : n.natAbs ≠ 0 := by omega
    have hpos := one_le_bitLength hne
    obtain ⟨hlow, hhigh⟩ := bitLength_bounds hne
    have hpow : (0 : ℚ) < 2 ^ (-k) := by positivity
    have hfirst : (bitLength n.natAbs : ℤ) - k - 1 = (bitLength n.natAbs - 1 : ℕ) + -k := by omega
    have habs : |(n : ℚ)| = (n.natAbs : ℕ) := by rw [← Int.cast_abs, Int.abs_eq_natAbs, Int.cast_natCast]
    rw [toRat_eq, abs_mul, abs_of_pos hpow, habs, magnitude, hfirst, sub_eq_add_neg,
      zpow_add₀ (by norm_num), zpow_add₀ (by norm_num), zpow_natCast, zpow_natCast]
    constructor
    · exact mul_le_mul_of_nonneg_right (by exact_mod_cast hlow) hpow.le
    · exact mul_lt_mul_of_pos_right (by exact_mod_cast hhigh) hpow

end Binary

namespace Decimal

/-- The digits of a number, the last of them so many places below the point. -/
def Mantissa.ofNat (n : Nat) (places : Int) : Mantissa :=
  ⟨(Decimal.digits n).length - places, (Decimal.digits n).map Int.ofNat⟩

private theorem Mantissa.truncates_ofNat {x : ℚ} {places : Int} (hx : 0 ≤ x) (hne : ⌊x * 10 ^ places⌋₊ ≠ 0) :
    (Mantissa.ofNat ⌊x * 10 ^ places⌋₊ places).Truncates x := by
  have hplace : (Mantissa.ofNat ⌊x * 10 ^ places⌋₊ places).lastPlace = -places := by
    simp [lastPlace, ofNat]
  refine ⟨allDigits_digits _, ?_, ?_⟩
  · obtain ⟨d, ds, hds, hd⟩ := exists_digitsBefore_eq hne []
    exact ⟨d, by rw [ofNat, Decimal.digits, hds]; rfl, by simpa using hd⟩
  · rw [hplace, ofNat, value_digits, Int.natCast_floor_eq_floor (by positivity), zpow_neg, div_inv_eq_mul]

end Decimal

namespace Number
variable {p : Nat}

/-- Powers of two and of ten are compared by fractions next to the decimal logarithm of two: `28 / 93` is
above it and `59 / 196` below. -/
theorem two_zpow_le_ten_zpow {m a : ℤ} (habove : 28 * m ≤ 93 * a) (hbelow : 59 * m ≤ 196 * a) :
    (2 : ℚ) ^ m ≤ 10 ^ a := by
  obtain ⟨i, j, hi, hpow, hle⟩ : ∃ i j : ℕ, i ≠ 0 ∧ ((2 : ℚ) ^ i) ^ m ≤ (10 ^ j) ^ m ∧ j * m ≤ i * a := by
    rcases le_total 0 m with hm | hm
    · exact ⟨93, 28, by decide, zpow_le_zpow_left₀ hm (by norm_num) (by norm_num), habove⟩
    · refine ⟨196, 59, by decide, ?_, hbelow⟩
      have hpow : ((10 : ℚ) ^ 59) ^ (-m) ≤ (2 ^ 196) ^ (-m) :=
        zpow_le_zpow_left₀ (by omega) (by norm_num) (by norm_num)
      rwa [zpow_neg, zpow_neg, inv_le_inv₀ (by positivity) (by positivity)] at hpow
  refine le_of_pow_le_pow_left₀ hi (by positivity) ?_
  calc ((2 : ℚ) ^ m) ^ i = (2 ^ i) ^ m := by
        rw [← zpow_natCast, ← zpow_natCast, ← zpow_mul, ← zpow_mul, mul_comm]
    _ ≤ (10 ^ j) ^ m := hpow
    _ = 10 ^ (j * m) := by rw [zpow_mul, zpow_natCast]
    _ ≤ 10 ^ (i * a) := zpow_le_zpow_right₀ (by norm_num) hle
    _ = (10 ^ a) ^ i := by rw [← zpow_natCast, ← zpow_mul, mul_comm]

theorem lt_of_ten_zpow_lt {m a : ℤ} (h : (10 : ℚ) ^ a < 2 ^ m) : 93 * a < 28 * m ∨ 196 * a < 59 * m := by
  by_contra hle
  exact absurd h (not_lt.2 (two_zpow_le_ten_zpow (by omega) (by omega)))

theorem lt_of_two_zpow_lt {m a : ℤ} (h : (2 : ℚ) ^ m < 10 ^ a) : 28 * m < 93 * a ∨ 59 * m < 196 * a := by
  have hneg : (10 : ℚ) ^ (-a) < 2 ^ (-m) := by
    rw [zpow_neg, zpow_neg]
    exact inv_strictAnti₀ (by positivity) h
  have := lt_of_ten_zpow_lt hneg
  omega

/-- The places of an expansion reach as far down as the digits wanted of it do. The fractions that bound the
decimal logarithm are off by less than the digits to spare among magnitudes of the range. -/
theorem ten_zpow_workingDigits_le {m : ℤ} (h : m.natAbs ≤ directMagnitude) :
    (10 : ℚ) ^ ((workingDigits p : ℤ) - 1 - decimalPlaces p m) ≤ 2 ^ (m - 1) := by
  by_contra hlt
  have hplaces := lt_of_two_zpow_lt (not_le.1 hlt)
  simp only [decimalPlaces, workingBits, bitsPerDigit, directMagnitude, Nat.pow_eq, Nat.reducePow]
    at h hplaces
  omega

/-- The places of an expansion reach below the leading bit, however large the number is. -/
theorem one_le_two_zpow_mul {m : ℤ} (h : -directMagnitude ≤ m) :
    (1 : ℚ) ≤ 2 ^ (m - 1) * 10 ^ decimalPlaces p m := by
  rcases le_or_gt m directMagnitude with hm | hm
  · have hworking : (0 : ℤ) ≤ workingDigits p - 1 := by
      rw [workingDigits, guardDigits]
      omega
    have hreach := ten_zpow_workingDigits_le (p := p) (by omega : m.natAbs ≤ directMagnitude)
    have hone : (1 : ℚ) ≤ 10 ^ ((workingDigits p : ℤ) - 1) := one_le_zpow₀ (by norm_num) hworking
    rw [zpow_sub₀ (by norm_num), div_le_iff₀ (by positivity), zpow_natCast] at hreach
    exact hone.trans hreach
  · have hpow : (1 : ℚ) ≤ 2 ^ (m - 1) := one_le_zpow₀ (by norm_num) (by simp only [directMagnitude] at hm; omega)
    have hplaces : (1 : ℚ) ≤ 10 ^ decimalPlaces p m := one_le_pow₀ (by norm_num)
    exact hpow.trans (le_mul_of_one_le_right (zero_le_one.trans hpow) hplaces)

variable {x : Dyadic}

/-- What is left of a number when its power of ten is divided out lies above a sixteenth, or else nothing is
divided out, and the number is not too small. -/
theorem outerExponent_spec (hx : 0 < x.toRat) :
    1 / 16 ≤ x.toRat * 10 ^ (-outerExponent x) ∨
      outerExponent x = 0 ∧ -(directMagnitude : ℤ) ≤ Binary.magnitude x := by
  cases x with
  | zero => exact absurd hx (lt_irrefl 0)
  | ofOdd n k hn =>
    obtain ⟨hpos, -⟩ := Binary.natAbs_of_nonneg hx.le
    have hone : (1 : ℚ) ≤ n := by exact_mod_cast hpos
    rw [outerExponent]
    split
    · rename_i hrange
      exact .inr ⟨rfl, by omega⟩
    · left
      have hexponent : Binary.magnitude (.ofOdd n k hn) - Binary.width (.ofOdd n k hn) = -k := by
        rw [Binary.magnitude, Binary.width]
        ring
      have htenth := Binary.tenth_lt_two_zpow_mul (-k)
      rw [hexponent, Binary.toRat_eq, mul_assoc]
      calc (1 / 16 : ℚ) ≤ 2 ^ (-k) * 10 ^ (-Binary.decimalExponent true (-k)) := by linarith
        _ ≤ n * (2 ^ (-k) * 10 ^ (-Binary.decimalExponent true (-k))) :=
            le_mul_of_one_le_left (by positivity) hone

/-- The inner magnitude is that of what is left, and it is not too small. -/
theorem innerMagnitude_spec (hx : 0 < x.toRat) :
    2 ^ (innerMagnitude p x (outerExponent x) - 1) ≤ x.toRat * 10 ^ (-outerExponent x) ∧
      -(directMagnitude : ℤ) ≤ innerMagnitude p x (outerExponent x) := by
  have hne : x ≠ 0 := fun h => absurd hx (by rw [h, Dyadic.toRat_zero]; exact lt_irrefl 0)
  obtain ⟨hlow, hhigh⟩ := Binary.magnitude_bounds hne
  rw [abs_of_pos hx] at hlow hhigh
  have hsixteenth : (2 : ℚ) ^ (-4 : ℤ) = 1 / 16 := by norm_num
  have hspec := outerExponent_spec hx
  generalize outerExponent x = outer at hspec ⊢
  rw [innerMagnitude]
  split
  · rename_i houter
    rw [houter, neg_zero, zpow_zero, mul_one] at hspec ⊢
    refine ⟨hlow, ?_⟩
    obtain hleft | ⟨-, hrange⟩ := hspec
    · have h : (2 : ℚ) ^ (-4 : ℤ) < 2 ^ Binary.magnitude x := hsixteenth ▸ hleft.trans_lt hhigh
      have := (zpow_lt_zpow_iff_right₀ (by norm_num : (1 : ℚ) < 2)).1 h
      simp only [directMagnitude]
      omega
    · exact hrange
  · rename_i houter
    have hleft := hspec.resolve_right fun h => houter h.1
    have hsixteen : (x <<< (4 : Int)).toRat * 10 ^ (-outer) = 16 * (x.toRat * 10 ^ (-outer)) := by
      rw [Binary.toRat_shiftLeft]
      norm_num
      ring
    have hpos : 0 ≤ (x <<< (4 : Int)).toRat := by
      rw [Binary.toRat_shiftLeft]
      positivity
    rw [Binary.scaledFloor_eq hpos, hsixteen]
    have hone : 1 ≤ 16 * (x.toRat * 10 ^ (-outer)) := by linarith
    have hbits := one_le_bitLength (Nat.floor_pos.2 hone).ne'
    have hle := two_pow_bitLength_floor_le hone
    generalize bitLength ⌊16 * (x.toRat * 10 ^ (-outer))⌋₊ = bits at hbits hle ⊢
    refine ⟨?_, by simp only [directMagnitude]; omega⟩
    have hexponent : (bits : ℤ) - 4 - 1 = (bits - 1 : ℕ) + (-4 : ℤ) := by omega
    rw [hexponent, zpow_add₀ (by norm_num), zpow_natCast, hsixteenth]
    linarith

/-- The expansion of a positive number is the number itself cut off toward zero. -/
theorem expandPositive_truncates (hx : 0 < x.toRat) : (expandPositive p x).Truncates x.toRat := by
  obtain ⟨hleft, hmagnitude⟩ := innerMagnitude_spec (p := p) hx
  rw [expandPositive]
  generalize innerMagnitude p x (outerExponent x) = m at hleft hmagnitude ⊢
  generalize outerExponent x = outer at hleft ⊢
  have hone : (1 : ℚ) ≤ x.toRat * 10 ^ ((decimalPlaces p m : ℤ) - outer) := by
    calc (1 : ℚ) ≤ 2 ^ (m - 1) * 10 ^ decimalPlaces p m := one_le_two_zpow_mul hmagnitude
      _ ≤ x.toRat * 10 ^ (-outer) * 10 ^ decimalPlaces p m := mul_le_mul_of_nonneg_right hleft (by positivity)
      _ = x.toRat * 10 ^ ((decimalPlaces p m : ℤ) - outer) := by
        rw [sub_eq_neg_add, zpow_add₀ (by norm_num), zpow_natCast, mul_assoc]
  have h := Decimal.Mantissa.truncates_ofNat hx.le (Nat.floor_pos.2 hone).ne'
  rwa [← Binary.scaledFloor_eq (p := p) hx.le] at h

/-- A number of the precision is expanded as it is, and if it is not too large or too small, nothing is
divided out. -/
theorem exponent_expand (hfits : Binary.Fits p x) (hrange : (Binary.magnitude x).natAbs ≤ directMagnitude) :
    (expand p x).exponent = (expand p x).digits.length - decimalPlaces p (Binary.magnitude x) := by
  have hmagnitude := Binary.magnitude_abs x
  have houter : outerExponent (Binary.abs x) = 0 := by rw [outerExponent, hmagnitude, if_pos hrange]
  rw [expand, Binary.nearest_of_fits hfits, expandPositive, houter, innerMagnitude, if_pos rfl, hmagnitude,
    List.length_map, sub_zero]

/-- The expansion of a number of the precision is the number itself cut off toward zero. -/
theorem truncates_expand (hx : x ≠ 0) (hfits : Binary.Fits p x) : (expand p x).Truncates |x.toRat| := by
  have hpos : 0 < (Binary.abs x).toRat :=
    Binary.toRat_abs x ▸ lt_of_lt_of_le (by positivity) (Binary.magnitude_bounds hx).1
  rw [expand, Binary.nearest_of_fits hfits, ← Binary.toRat_abs]
  exact expandPositive_truncates hpos

/-- If a number is not too large or too small, its expansion reaches a place below the digits that the
precision is worth. -/
theorem expand_truncates (hx : x ≠ 0) (hfits : Binary.Fits p x)
    (hrange : (Binary.magnitude x).natAbs ≤ directMagnitude) :
    (expand p x).Truncates |x.toRat| ∧ workingDigits p ≤ (expand p x).digits.length := by
  have htruncates := truncates_expand hx hfits
  refine ⟨htruncates, ?_⟩
  have h := ((ten_zpow_workingDigits_le (p := p) hrange).trans (Binary.magnitude_bounds hx).1).trans_lt
    htruncates.bounds.2
  rw [zpow_lt_zpow_iff_right₀ (by norm_num), exponent_expand hfits hrange] at h
  omega

/-- The exponent of an expansion is hardly longer than a thousand, and the expansion has no more digits than
that besides those that the precision is worth. -/
theorem expand_bounds (hx : x ≠ 0) (hfits : Binary.Fits p x)
    (hrange : (Binary.magnitude x).natAbs ≤ directMagnitude) :
    (expand p x).exponent.natAbs ≤ 1060 ∧ (expand p x).digits.length ≤ workingDigits p + 1060 := by
  obtain ⟨hlow, hhigh⟩ := Binary.magnitude_bounds hx
  obtain ⟨hlow', hhigh'⟩ := (truncates_expand hx hfits).bounds
  have hbelow := lt_of_ten_zpow_lt (hlow'.trans_lt hhigh)
  have habove := lt_of_two_zpow_lt (hlow.trans_lt hhigh')
  have hexponent := exponent_expand hfits hrange
  simp only [decimalPlaces, workingBits, bitsPerDigit, directMagnitude, Nat.pow_eq, Nat.reducePow]
    at hrange hexponent
  omega

end Number

end Reckoner
