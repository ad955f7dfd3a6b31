import Reckoner.Proofs.DecimalExpansion
import Mathlib.Tactic.Linarith

/-! The spacing of the numbers of a binary precision. Above a power of two they are multiples of a unit, and
the last one below it lies half of that unit away. -/

namespace Reckoner

/-- Different multiples of a unit are at least the unit apart. -/
theorem unit_le_abs_sub {unit : ℚ} (hunit : 0 < unit) {m n : ℤ} (h : (m * unit : ℚ) ≠ n * unit) :
    unit ≤ |m * unit - n * unit| := by
  have hne : m - n ≠ 0 := by
    rintro hzero
    exact h (by rw [sub_eq_zero.1 hzero])
  have hone : (1 : ℚ) ≤ |((m - n : ℤ) : ℚ)| := by exact_mod_cast Int.one_le_abs hne
  calc unit ≤ |((m - n : ℤ) : ℚ)| * unit := le_mul_of_one_le_left hunit.le hone
    _ = |m * unit - n * unit| := by rw [← sub_mul, abs_mul, abs_of_pos hunit, Int.cast_sub]

namespace Binary
variable {p : Nat} {x y : Dyadic}

private theorem magnitude_le_of_fits {n k : ℤ} {hn : n % 2 = 1} (h : Fits p (.ofOdd n k hn)) :
    magnitude (.ofOdd n k hn) ≤ p - k := by
  have hwidth : bitLength n.natAbs ≤ p := h
  rw [magnitude]
  omega

/-- Above a power of two the numbers of a precision are multiples of the unit of the last bit there. -/
theorem exists_eq_mul_of_fits (h : Fits p x) {a : ℤ} (hx : 2 ^ (a + p - 1) ≤ |x.toRat|) :
    ∃ n : ℤ, x.toRat = n * 2 ^ a := by
  cases x with
  | zero =>
    rw [show Dyadic.zero.toRat = 0 from rfl, abs_zero] at hx
    exact absurd hx (not_le.2 (by positivity))
  | ofOdd n k hn =>
    have hhigh := (magnitude_bounds (nofun : Dyadic.ofOdd n k hn ≠ 0)).2
    have hmagnitude := magnitude_le_of_fits h
    have hlt := (zpow_lt_zpow_iff_right₀ (by norm_num : (1 : ℚ) < 2)).1 (hx.trans_lt hhigh)
    obtain ⟨j, hj⟩ : ∃ j : ℕ, -k = j + a := ⟨(-k - a).toNat, by omega⟩
    refine ⟨n * 2 ^ j, ?_⟩
    rw [toRat_eq, hj, zpow_add₀ (by norm_num), zpow_natCast]
    push_cast
    ring

/-- Below a power of two the numbers of a precision leave a gap. -/
theorem abs_toRat_le_of_lt (h : Fits p x) {c : ℤ} (hx : |x.toRat| < 2 ^ c) :
    |x.toRat| ≤ 2 ^ c * (1 - 2 ^ (-p : ℤ)) := by
  have hsmall : (2 : ℚ) ^ (-p : ℤ) ≤ 1 := zpow_le_one_of_nonpos₀ (by norm_num) (by omega)
  cases x with
  | zero =>
    rw [show Dyadic.zero.toRat = 0 from rfl, abs_zero]
    exact mul_nonneg (by positivity) (sub_nonneg.2 hsmall)
  | ofOdd n k hn =>
    have hlow := (magnitude_bounds (nofun : Dyadic.ofOdd n k hn ≠ 0)).1
    have hle := (zpow_lt_zpow_iff_right₀ (by norm_num : (1 : ℚ) < 2)).1 (hlow.trans_lt hx)
    have hwidth : bitLength n.natAbs ≤ p := h
    have hsignificand : |(n : ℚ)| ≤ 2 ^ (bitLength n.natAbs : ℤ) - 1 := by
      have hlt := (bitLength_bounds (by omega : n.natAbs ≠ 0)).2
      have hcast : ((n.natAbs + 1 : ℕ) : ℚ) ≤ (2 ^ bitLength n.natAbs : ℕ) := by exact_mod_cast hlt
      push_cast at hcast
      rw [Nat.cast_natAbs, Int.cast_abs] at hcast
      rw [zpow_natCast]
      linarith
    have hone : (2 : ℚ) ^ (bitLength n.natAbs : ℤ) * 2 ^ (-(bitLength n.natAbs : ℤ)) = 1 := by
      rw [← zpow_add₀ (by norm_num), add_neg_cancel, zpow_zero]
    have hgap : (2 : ℚ) ^ (-p : ℤ) ≤ 2 ^ (-(bitLength n.natAbs : ℤ)) :=
      zpow_le_zpow_right₀ (by norm_num) (by omega)
    have hpow : (0 : ℚ) < 2 ^ (-k) := by positivity
    calc |(Dyadic.ofOdd n k hn).toRat| = |(n : ℚ)| * 2 ^ (-k) := by rw [toRat_eq, abs_mul, abs_of_pos hpow]
      _ ≤ (2 ^ (bitLength n.natAbs : ℤ) - 1) * 2 ^ (-k) := mul_le_mul_of_nonneg_right hsignificand hpow.le
      _ = 2 ^ magnitude (.ofOdd n k hn) * (1 - 2 ^ (-(bitLength n.natAbs : ℤ))) := by
        rw [magnitude, sub_eq_add_neg _ k, zpow_add₀ (by norm_num)]
        linear_combination (2 : ℚ) ^ (-k) * hone
      _ ≤ 2 ^ c * (1 - 2 ^ (-p : ℤ)) := by
        refine mul_le_mul (zpow_le_zpow_right₀ (by norm_num) (by omega)) (by linarith) ?_ (by positivity)
        exact sub_nonneg.2 (zpow_le_one_of_nonpos₀ (by norm_num) (by omega))

/-- Different numbers of a precision are a unit of the last bit apart, in proportion. -/
theorem abs_mul_le_abs_sub (hp : 1 ≤ p) (hx : Fits p x) (hy : Fits p y) (hne : y ≠ x) :
    |x.toRat| * 2 ^ (-p : ℤ) ≤ |y.toRat - x.toRat| := by
  by_cases hzero : x = 0
  · rw [hzero, Dyadic.toRat_zero, abs_zero, zero_mul]
    exact abs_nonneg _
  obtain ⟨hlow, hhigh⟩ := magnitude_bounds hzero
  have hsmall : (2 : ℚ) ^ (-p : ℤ) ≤ 1 := zpow_le_one_of_nonpos₀ (by norm_num) (by omega)
  have hfirst : magnitude x - p + p - 1 = magnitude x - 1 := by ring
  rcases le_or_gt (2 ^ (magnitude x - 1)) |y.toRat| with hlarge | hless
  · -- Both are multiples of the unit above the leading bit of `x`.
    obtain ⟨m, hm⟩ := exists_eq_mul_of_fits hy (hfirst ▸ hlarge)
    obtain ⟨n, hn⟩ := exists_eq_mul_of_fits hx (hfirst ▸ hlow)
    have hdiffer : (m * 2 ^ (magnitude x - p) : ℚ) ≠ n * 2 ^ (magnitude x - p) := by
      rw [← hm, ← hn]
      exact fun h => hne (Dyadic.toRat_inj.1 h)
    calc |x.toRat| * 2 ^ (-p : ℤ) ≤ 2 ^ magnitude x * 2 ^ (-p : ℤ) := by gcongr
      _ = 2 ^ (magnitude x - p) := by rw [← zpow_add₀ (by norm_num), sub_eq_add_neg]
      _ ≤ |y.toRat - x.toRat| := hm ▸ hn ▸ unit_le_abs_sub (by positivity) hdiffer
  · -- What is between `x` and the power below it is more than its share of the gap below that power.
    have hgap := abs_toRat_le_of_lt hy hless
    have hshare : (|x.toRat| - 2 ^ (magnitude x - 1)) * 2 ^ (-p : ℤ) ≤ |x.toRat| - 2 ^ (magnitude x - 1) :=
      mul_le_of_le_one_right (sub_nonneg.2 hlow) hsmall
    have hdistance := abs_sub_abs_le_abs_sub x.toRat y.toRat
    rw [abs_sub_comm] at hdistance
    linarith

/-- A multiple within half a unit is the nearest of all multiples. -/
theorem abs_sub_le_of_half {unit t : ℚ} (hunit : 0 < unit) {m : ℤ} (h : |m * unit - t| ≤ unit / 2) (n : ℤ) :
    |m * unit - t| ≤ |n * unit - t| := by
  by_cases heq : (m * unit : ℚ) = n * unit
  · rw [heq]
  · have hapart := (unit_le_abs_sub hunit heq).trans (abs_sub_le _ t _)
    rw [abs_sub_comm t] at hapart
    linarith

/-- A multiple within half a unit is the nearest of all numbers of the precision. -/
theorem abs_sub_le_of_fits (hp : 1 ≤ p) {a m : ℤ} {t : ℚ} (ht : 2 ^ (a + p - 1) ≤ t)
    (h : |m * 2 ^ a - t| ≤ 2 ^ a / 2) (hy : Fits p y) : |m * 2 ^ a - t| ≤ |y.toRat - t| := by
  have hnearest := abs_sub_le_of_half (by positivity) h
  rcases le_or_gt (2 ^ (a + p - 1)) |y.toRat| with hlarge | hless
  · obtain ⟨n, hn⟩ := exists_eq_mul_of_fits hy hlarge
    exact hn ▸ hnearest n
  · -- The power itself is a multiple and lies between the two.
    have hpower : ((2 ^ (p - 1) : ℤ) : ℚ) * 2 ^ a = 2 ^ (a + p - 1) := by
      push_cast
      rw [← zpow_natCast, ← zpow_add₀ (by norm_num)]
      congr 1
      omega
    calc |m * 2 ^ a - t| ≤ |((2 ^ (p - 1) : ℤ) : ℚ) * 2 ^ a - t| := hnearest _
      _ = t - 2 ^ (a + p - 1) := by rw [hpower, abs_sub_comm, abs_of_nonneg (sub_nonneg.2 ht)]
      _ ≤ t - y.toRat := by linarith [le_abs_self y.toRat]
      _ ≤ |y.toRat - t| := by
        rw [abs_sub_comm]
        exact le_abs_self _

end Binary

end Reckoner
