import Reckoner.Proofs.DecimalDigits
import Mathlib.Algebra.Order.Field.Power
import Mathlib.Data.Rat.Floor

/-! Rounding of a decimal expansion that is cut off toward zero. One digit below the last one kept decides,
and the result is the multiple nearest to the number itself, not only to its expansion. -/

namespace Reckoner

/-- The multiple of a unit that is nearest to `x`; of two equally near ones the one farther from zero. -/
structure NearestMultiple (unit x r : ℚ) : Prop where
  multiple : ∃ n : ℤ, r = n * unit
  nearest : ∀ n : ℤ, |x - r| ≤ |x - n * unit|
  away : ∀ n : ℤ, |x - n * unit| = |x - r| → |n * unit| ≤ |r|

section Nearest
variable {unit x r : ℚ}

theorem NearestMultiple.neg (h : NearestMultiple unit x r) : NearestMultiple unit (-x) (-r) := by
  have hreflect (n : ℤ) : |-x - n * unit| = |x - (-n : ℤ) * unit| := by
    rw [← abs_neg]
    push_cast
    ring_nf
  have hdistance : |-x - -r| = |x - r| := by rw [← abs_neg]; ring_nf
  refine ⟨?_, fun n => ?_, fun n hn => ?_⟩
  · obtain ⟨n, rfl⟩ := h.multiple
    exact ⟨-n, by push_cast; ring⟩
  · rw [hdistance, hreflect]
    exact h.nearest (-n)
  · rw [hdistance, hreflect] at hn
    have := h.away (-n) hn
    rw [abs_neg]
    calc |(n : ℚ) * unit| = |((-n : ℤ) : ℚ) * unit| := by rw [← abs_neg]; push_cast; ring_nf
      _ ≤ |r| := this

/-- The nearest multiple is less than a unit away. -/
theorem NearestMultiple.abs_sub_lt (h : NearestMultiple unit x r) (hu : 0 < unit) : |x - r| < unit := by
  have hlow : ⌊x / unit⌋ * unit ≤ x := (le_div_iff₀ hu).1 (Int.floor_le _)
  have hhigh : x < (⌊x / unit⌋ + 1) * unit := (div_lt_iff₀ hu).1 (Int.lt_floor_add_one _)
  calc |x - r| ≤ |x - ⌊x / unit⌋ * unit| := h.nearest _
    _ = x - ⌊x / unit⌋ * unit := abs_of_nonneg (sub_nonneg.2 hlow)
    _ < unit := by linarith

/-- Of two integers equally near to a number that is not negative, the rounded one is the larger. -/
theorem abs_le_abs_round (hx : 0 ≤ x) {n : ℤ} (h : |x - n| = |x - round x|) : |n| ≤ |round x| := by
  obtain ⟨hlow, hhigh⟩ := round_eq_iff.1 (rfl : round x = round x)
  have hround : 0 ≤ round x := by
    rw [round_eq, Int.floor_nonneg]
    linarith
  rcases abs_eq_abs.1 h with h | h
  · have hn : n = round x := by exact_mod_cast (by linarith : (n : ℚ) = round x)
    rw [hn]
  · have hsum : (n : ℚ) + round x = 2 * x := by linarith
    have hle : n ≤ round x := by
      have : (n : ℚ) < round x + 1 := by linarith
      exact_mod_cast Int.lt_add_one_iff.1 (by exact_mod_cast this)
    have hge : -round x ≤ n := by
      have : -(round x : ℚ) ≤ n := by linarith
      exact_mod_cast this
    rw [abs_of_nonneg hround]
    exact abs_le.2 ⟨hge, hle⟩

private theorem nearestMultiple_round (hu : 0 < unit) (hx : 0 ≤ x) :
    NearestMultiple unit x (round (x / unit) * unit) := by
  have hdistance (n : ℤ) : |x - n * unit| = |x / unit - n| * unit := by
    rw [← abs_of_pos hu, ← abs_mul, abs_of_pos hu, sub_mul, div_mul_cancel₀ _ hu.ne']
  refine ⟨⟨_, rfl⟩, fun n => ?_, fun n hn => ?_⟩
  · rw [hdistance, hdistance]
    exact mul_le_mul_of_nonneg_right (round_le _ n) hu.le
  · rw [hdistance, hdistance] at hn
    have h := abs_le_abs_round (div_nonneg hx hu.le) (mul_right_cancel₀ hu.ne' hn)
    rw [abs_mul, abs_mul]
    exact mul_le_mul_of_nonneg_right (by exact_mod_cast h) (abs_nonneg unit)

end Nearest

/-- The digit below the last one kept decides: five or more of it counts as one above. -/
theorem floor_ten_mul_add_five_div (x : ℚ) : (⌊10 * x⌋ + 5) / 10 = round x := by
  have h : x + 1 / 2 = (10 * x + (5 : ℤ)) / (10 : ℕ) := by push_cast; ring
  rw [round_eq, h, Int.floor_div_natCast, Int.floor_add_intCast]
  rfl

namespace Decimal

/-- The number that a mantissa writes. -/
def Mantissa.toRat (m : Mantissa) : ℚ :=
  value m.digits * 10 ^ m.lastPlace

/-- The digits down to a place, with one more, write ten times the multiple of that place, cut off. -/
theorem Mantissa.value_take_eq_floor {m : Mantissa} (h : AllDigits m.digits) {x : ℚ}
    (hvalue : value m.digits = ⌊x / 10 ^ m.lastPlace⌋) {cut : Nat} (hlt : cut < m.digits.length) :
    value (m.digits.take (cut + 1)) = ⌊10 * (x / 10 ^ (m.exponent - cut))⌋ := by
  have hunit : (10 : ℚ) ^ m.lastPlace * ((10 ^ (m.digits.length - (cut + 1)) : ℕ) : ℚ) * 10 =
      10 ^ (m.exponent - cut) := by
    push_cast
    rw [← zpow_natCast, ← zpow_add₀ (by norm_num), ← zpow_add_one₀ (by norm_num), lastPlace]
    congr 1
    omega
  have hscale : x / 10 ^ m.lastPlace / ((10 ^ (m.digits.length - (cut + 1)) : ℕ) : ℚ) =
      10 * (x / 10 ^ (m.exponent - cut)) := by
    rw [← hunit, div_div, mul_div_assoc', mul_comm _ (10 : ℚ), mul_div_mul_left _ _ (by norm_num)]
  rw [value_take h, hvalue, ← hscale, Int.floor_div_natCast]
  push_cast
  rfl

/-- A mantissa is an expansion of `x` that is cut off toward zero. Its first digit is not zero. -/
structure Mantissa.Truncates (m : Mantissa) (x : ℚ) : Prop where
  digits : AllDigits m.digits
  leading : ∃ d, m.digits.head? = some d ∧ d ≠ 0
  value : value m.digits = ⌊x / 10 ^ m.lastPlace⌋

namespace Mantissa.Truncates
variable {m : Mantissa} {x : ℚ}

theorem pow_le_value (h : m.Truncates x) :
    0 < m.digits.length ∧ 10 ^ (m.digits.length - 1) ≤ Decimal.value m.digits := by
  obtain ⟨d, hhead, hd⟩ := h.leading
  obtain ⟨ds, hds⟩ := List.head?_eq_some_iff.1 hhead
  have := (hds ▸ h.digits).pow_le_value hd
  rw [hds]
  exact ⟨List.length_pos_of_mem List.mem_cons_self, this⟩

/-- The exponent is that of the least power of ten above the number. -/
theorem bounds (h : m.Truncates x) : 10 ^ (m.exponent - 1) ≤ x ∧ x < 10 ^ m.exponent := by
  have hunit : (0 : ℚ) < 10 ^ m.lastPlace := by positivity
  obtain ⟨hpos, hlow⟩ := h.pow_le_value
  have hhigh := h.digits.value_bounds.2
  rw [h.value, Int.le_floor, le_div_iff₀ hunit] at hlow
  rw [h.value, Int.floor_lt, div_lt_iff₀ hunit] at hhigh
  push_cast at hlow hhigh
  rw [← zpow_natCast, ← zpow_add₀ (by norm_num)] at hlow hhigh
  have hfirst : ((m.digits.length - 1 : ℕ) : ℤ) + m.lastPlace = m.exponent - 1 := by
    rw [lastPlace]
    omega
  have hall : (m.digits.length : ℤ) + m.lastPlace = m.exponent := by
    rw [lastPlace]
    omega
  rw [hfirst] at hlow
  rw [hall] at hhigh
  exact ⟨hlow, hhigh⟩

private theorem nonneg (h : m.Truncates x) : 0 ≤ x :=
  le_trans (by positivity) h.bounds.1

private theorem value_take (h : m.Truncates x) {count : Int} (hpos : 1 ≤ count)
    (hlt : count < m.digits.length) :
    Decimal.value (m.digits.take (count.toNat + 1)) = ⌊10 * (x / 10 ^ (m.exponent - count))⌋ := by
  rw [value_take_eq_floor h.digits h.value (by omega), Int.toNat_of_nonneg (by omega)]

/-- Digits are rounded to the multiple that the number itself is rounded to. -/
theorem exists_roundTo (h : m.Truncates x) {count : Int} (hpos : 1 ≤ count)
    (hlt : count < m.digits.length) :
    ∃ r, roundTo m count = .ok (some r) ∧ AllDigits r.digits ∧ 0 < Decimal.value r.digits ∧
      NearestMultiple (10 ^ (m.exponent - count)) x r.toRat ∧
      r.lastPlace = m.exponent - count ∧ (r.exponent = m.exponent ∨ r.exponent = m.exponent + 1) := by
  obtain ⟨r, hr, hdigits, hvalue, hplace, hexponent⟩ := exists_roundTo_eq h.digits h.leading hpos hlt
  have hunit : (0 : ℚ) < 10 ^ (m.exponent - count) := by positivity
  have hround : Decimal.value r.digits = round (x / 10 ^ (m.exponent - count)) := by
    rw [hvalue, h.value_take hpos hlt, floor_ten_mul_add_five_div]
  have hone : 1 ≤ x / 10 ^ (m.exponent - count) := by
    rw [one_le_div hunit]
    exact (zpow_le_zpow_right₀ (by norm_num) (by omega)).trans h.bounds.1
  refine ⟨r, hr, hdigits, ?_, ?_, hplace, hexponent⟩
  · rw [hround, round_eq, Int.floor_pos]
    linarith
  · rw [toRat, hround, hplace]
    exact nearestMultiple_round hunit h.nonneg

/-- What is cut off is less than a unit of the last place. -/
theorem abs_sub_toRat_lt (h : m.Truncates x) : |x - m.toRat| < 10 ^ m.lastPlace := by
  have hunit : (0 : ℚ) < 10 ^ m.lastPlace := by positivity
  have hlow := (le_div_iff₀ hunit).1 (Int.floor_le (x / 10 ^ m.lastPlace))
  have hhigh := (div_lt_iff₀ hunit).1 (Int.lt_floor_add_one (x / 10 ^ m.lastPlace))
  rw [toRat, h.value, abs_of_nonneg (sub_nonneg.2 hlow)]
  linarith

/-- Digits that are rounded to a count, or kept if they are no more, are off by less than a unit of the last
place of any count below both. -/
theorem exists_roundTo_near (h : m.Truncates x) {count least : Int} (hpos : 1 ≤ least)
    (hcount : least ≤ count) (hlength : least ≤ m.digits.length) :
    ∃ r, roundTo m count = .ok (some r) ∧ AllDigits r.digits ∧ 0 < Decimal.value r.digits ∧
      |x - r.toRat| < 10 ^ (m.exponent - least) ∧ (∃ n : ℤ, r.toRat = n * 10 ^ (m.exponent - count)) ∧
      r.digits.length ≤ m.digits.length + 1 ∧ (r.exponent = m.exponent ∨ r.exponent = m.exponent + 1) := by
  rcases lt_or_ge count m.digits.length with hlt | hge
  · obtain ⟨r, hr, hdigits, hvalue, hnearest, hplace, hexponent⟩ := h.exists_roundTo (hpos.trans hcount) hlt
    have hle : (10 : ℚ) ^ (m.exponent - count) ≤ 10 ^ (m.exponent - least) :=
      zpow_le_zpow_right₀ (by norm_num) (by omega)
    refine ⟨r, hr, hdigits, hvalue, (hnearest.abs_sub_lt (by positivity)).trans_le hle, hnearest.multiple, ?_,
      hexponent⟩
    rw [lastPlace] at hplace
    omega
  · have hle : (10 : ℚ) ^ m.lastPlace ≤ 10 ^ (m.exponent - least) :=
      zpow_le_zpow_right₀ (by norm_num) (by rw [lastPlace]; omega)
    have hfiner : (10 : ℚ) ^ m.lastPlace =
        ((10 ^ (count - m.digits.length).toNat : ℤ) : ℚ) * 10 ^ (m.exponent - count) := by
      push_cast
      rw [← zpow_natCast, ← zpow_add₀ (by norm_num), lastPlace]
      congr 1
      omega
    refine ⟨m, ?_, h.digits, lt_of_lt_of_le (by positivity) h.pow_le_value.2, h.abs_sub_toRat_lt.trans_le hle,
      ⟨Decimal.value m.digits * 10 ^ (count - m.digits.length).toNat, ?_⟩, Nat.le_succ _, .inl rfl⟩
    · rw [roundTo_eq h.leading (hpos.trans hcount), if_pos hge]
    · rw [toRat, hfiner]
      push_cast
      ring

end Mantissa.Truncates

end Decimal

end Reckoner
