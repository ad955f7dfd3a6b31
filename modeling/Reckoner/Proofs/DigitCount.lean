import Reckoner.Number.Expansion
import Reckoner.Proofs.BinaryRounding

/-! The number of decimal digits that a precision is worth. It is worked out in 53 bits from a fraction that is a
little above `log₂ 10`, so that it comes out right up to some precision only. -/

namespace Reckoner

namespace Binary
variable {p : Nat} {x y v : Dyadic}

private theorem shiftRight_eq (x : Dyadic) (i : Int) : x >>> i = x <<< (-i) := by
  cases x with
  | zero => rfl
  | ofOdd n k hn =>
    change Dyadic.ofOdd n (k + i) hn = Dyadic.ofOdd n (k - -i) hn
    rw [sub_neg_eq_add]

/-- The quotient of positive numbers is rounded once. -/
theorem rounds_div (hp : 1 ≤ p) (hx : 0 ≤ x.toRat) (hy : 0 < y.toRat) :
    Rounds p (x.toRat / y.toRat) (div p x y) := by
  cases x with
  | zero =>
    have hzero : Rounds p (Dyadic.toRat 0) 0 := rounds_of_fits (Nat.zero_le p)
    rw [Dyadic.toRat_zero] at hzero
    exact (zero_div y.toRat).symm ▸ hzero
  | ofOdd n k hn =>
    cases y with
    | zero => exact absurd hy (lt_irrefl 0)
    | ofOdd m l hm =>
      obtain ⟨hnpos, hncast⟩ := natAbs_of_nonneg hx
      obtain ⟨hmpos, hmcast⟩ := natAbs_of_nonneg hy.le
      have hvalue : (Dyadic.ofOdd n k hn).toRat / (Dyadic.ofOdd m l hm).toRat =
          (n.natAbs / m.natAbs : ℚ) * 2 ^ (-(k - l)) := by
        rw [toRat_eq, toRat_eq, hncast, hmcast, neg_sub, sub_eq_add_neg, zpow_add₀ (by norm_num), zpow_neg 2 l]
        field_simp
      have hsign : (decide (n < 0) != decide (m < 0)) = false := by
        rw [decide_eq_false (not_lt.2 hnpos.le), decide_eq_false (not_lt.2 hmpos.le)]
        rfl
      have hn : n.natAbs ≠ 0 := by omega
      have hm : 0 < m.natAbs := by omega
      rw [div, hsign, hvalue, shiftRight_eq]
      exact (rounds_nearest_ofQuotient hp hn hm).shiftLeft (-(k - l))

private theorem abs_nearestNat_sub_le (h : 0 ≤ x.toRat) : |(nearestNat x : ℚ) - x.toRat| ≤ 1 / 2 := by
  cases x with
  | zero => norm_num [nearestNat]
  | ofOdd n k hn =>
    obtain ⟨-, hcast⟩ := natAbs_of_nonneg h
    rw [nearestNat, toRat_eq, hcast]
    split
    · rename_i hk
      rw [Nat.shiftLeft_eq]
      push_cast
      rw [← zpow_natCast, Int.toNat_of_nonneg (by omega), sub_self, abs_zero]
      norm_num
    · rename_i hk
      have hpos : 0 < Nat.pow 2 k.toNat := Nat.two_pow_pos _
      have hunit : (0 : ℚ) < (Nat.pow 2 k.toNat : ℕ) := by exact_mod_cast hpos
      have hpow : (2 : ℚ) ^ (-k) = ((Nat.pow 2 k.toNat : ℕ) : ℚ)⁻¹ := by
        rw [zpow_neg, Nat.pow_eq, Nat.cast_pow, Nat.cast_ofNat, ← zpow_natCast, Int.toNat_of_nonneg (by omega)]
      have hquotient := abs_nearestQuotient_mul_sub_le n.natAbs hpos
      rw [hpow, ← div_eq_mul_inv, ← mul_le_mul_iff_left₀ hunit, ← abs_of_pos hunit, ← abs_mul, sub_mul,
        abs_of_pos hunit, div_mul_cancel₀ _ hunit.ne']
      exact hquotient.trans_eq (by ring)

end Binary

namespace Number
open Binary
variable {p : Nat}

/-- A precision in decimal digits, unrounded. -/
def exactDigits (p : Nat) : ℚ :=
  p / (bitsPerDigit.1 / bitsPerDigit.2)

theorem exactDigits_eq (p : Nat) : exactDigits p = p * (1125899906842624 / 3740158532571577) := by
  rw [exactDigits, div_div_eq_mul_div, mul_div_assoc, bitsPerDigit]
  norm_num

theorem exactDigits_nonneg (p : Nat) : 0 ≤ exactDigits p := by
  rw [exactDigits]
  positivity

/-- The precision is rounded, and so is the quotient. -/
theorem exists_rounds_digitsIn (p : Nat) :
    ∃ v : Dyadic, 0 ≤ v.toRat ∧ v = nearest 53 (.ofInt p) ∧ Rounds 53 p v ∧
      Rounds 53 (v.toRat / (bitsPerDigit.1 / bitsPerDigit.2)) (digitsIn p) := by
  have hbits : (Dyadic.ofIntWithPrec (bitsPerDigit.1 : ℕ) 50).toRat = (bitsPerDigit.1 / bitsPerDigit.2 : ℚ) := by
    rw [Dyadic.toRat_ofIntWithPrec_eq_mul_two_pow, zpow_neg, ← div_eq_mul_inv]
    norm_num [bitsPerDigit]
  have hpos : (0 : ℚ) < bitsPerDigit.1 / bitsPerDigit.2 := by norm_num [bitsPerDigit]
  have hround := rounds_nearest (p := 53) (by decide) (.ofInt p)
  rw [Dyadic.ofInt, Dyadic.toRat_ofIntWithPrec_eq_mul_two_pow, neg_zero, zpow_zero, mul_one, Int.cast_natCast] at hround
  have hnonneg : 0 ≤ (nearest 53 (.ofInt p)).toRat :=
    not_lt.1 fun hlt => not_lt.2 (Nat.cast_nonneg p) ((hround.toRat_neg_iff (by decide)).1 hlt)
  exact ⟨_, hnonneg, rfl, hround, hbits ▸ rounds_div (by decide) hnonneg (hbits ▸ hpos)⟩

private theorem abs_digitsIn_sub_le (p : Nat) :
    |(digitsIn p).toRat - exactDigits p| ≤ exactDigits p * 2 ^ (-51 : ℤ) := by
  obtain ⟨v, hv, -, hround, hquotient⟩ := exists_rounds_digitsIn p
  have hpos : (0 : ℚ) < bitsPerDigit.1 / bitsPerDigit.2 := by norm_num [bitsPerDigit]
  have hp : (0 : ℚ) ≤ p := Nat.cast_nonneg p
  have hfirst := hround.error
  have hsecond := hquotient.error
  rw [abs_of_nonneg hp] at hfirst
  rw [abs_of_nonneg (div_nonneg hv hpos.le)] at hsecond
  have hnumerator : |v.toRat / (bitsPerDigit.1 / bitsPerDigit.2) - exactDigits p| ≤
      exactDigits p * 2 ^ (-53 : ℤ) := by
    rw [exactDigits, ← sub_div, abs_div, abs_of_pos hpos, div_mul_eq_mul_div]
    exact div_le_div_of_nonneg_right hfirst hpos.le
  have hsum := abs_sub_le (digitsIn p).toRat (v.toRat / (bitsPerDigit.1 / bitsPerDigit.2)) (exactDigits p)
  generalize v.toRat / (bitsPerDigit.1 / bitsPerDigit.2) = q at *
  have hq := (abs_le.1 hnumerator).2
  have hnonneg := exactDigits_nonneg p
  norm_num at hsecond hnumerator hq ⊢
  linarith

private theorem abs_digitsIn_sub_le_of_le (h : p ≤ 2 ^ 53) :
    |(digitsIn p).toRat - exactDigits p| ≤ exactDigits p * 2 ^ (-53 : ℤ) := by
  obtain ⟨v, -, rfl, -, hquotient⟩ := exists_rounds_digitsIn p
  have hfits : Binary.Fits 53 (Dyadic.ofInt p) := fits_ofIntWithPrec (by decide) (by rwa [Int.natAbs_natCast]) 0
  have herror := hquotient.error
  rw [nearest_of_fits hfits, Dyadic.ofInt, Dyadic.toRat_ofIntWithPrec_eq_mul_two_pow, neg_zero, zpow_zero, mul_one,
    Int.cast_natCast] at herror
  rwa [← exactDigits, abs_of_nonneg (exactDigits_nonneg p)] at herror

theorem abs_nearestNat_digitsIn_sub_le {e : ℚ} (h : |(digitsIn p).toRat - exactDigits p| ≤ e) :
    |(nearestNat (digitsIn p) : ℚ) - exactDigits p| ≤ e + 1 / 2 := by
  obtain ⟨v, hv, -, -, hquotient⟩ := exists_rounds_digitsIn p
  have hnonneg : 0 ≤ (digitsIn p).toRat :=
    not_lt.1 fun hlt => not_lt.2 (by positivity) ((hquotient.toRat_neg_iff (by decide)).1 hlt)
  have hnearest := abs_nearestNat_sub_le hnonneg
  have hsum := abs_sub_le (nearestNat (digitsIn p) : ℚ) (digitsIn p).toRat (exactDigits p)
  linarith

/-- A precision is worth at least `0.30102` and at most `0.30104` digits a bit, but for one and a half digits. -/
theorem digitsOfPrecision_bounds (p : Nat) :
    30102 * p ≤ 100000 * (digitsOfPrecision p : ℤ) + 150000 ∧
      100000 * (digitsOfPrecision p : ℤ) ≤ 30104 * p + 100000 := by
  have hnear := abs_le.1 (abs_nearestNat_digitsIn_sub_le (abs_digitsIn_sub_le p))
  rw [exactDigits_eq] at hnear
  norm_num at hnear
  have hp : (0 : ℚ) ≤ p := Nat.cast_nonneg p
  have hlow : (30102 * p : ℚ) ≤ 100000 * nearestNat (digitsIn p) + 50000 := by linarith
  have hhigh : (100000 * nearestNat (digitsIn p) : ℚ) ≤ 30104 * p + 50000 := by linarith
  have hlow : 30102 * p ≤ 100000 * nearestNat (digitsIn p) + 50000 := by exact_mod_cast hlow
  have hhigh : 100000 * nearestNat (digitsIn p) ≤ 30104 * p + 50000 := by exact_mod_cast hhigh
  rw [digitsOfPrecision]
  omega

/-- Up to `2 ^ 51` bits, the digits that a precision is worth and two of the guard digits tell halves of the last bit
apart. -/
theorem two_pow_lt_ten_pow (hp : p ≤ 2 ^ 51) : 2 ^ (p + 1) < 10 ^ (digitsOfPrecision p + 2) := by
  have hlog := (log10Power_spec (10 * bitsPerDigit.1)).2
  have hvalue : log10Power (10 * bitsPerDigit.1) = 10 * bitsPerDigit.2 := by decide +kernel
  rw [hvalue] at hlog
  have hdigits : (10 * bitsPerDigit.2 + 1) * (p + 1) ≤ 10 * bitsPerDigit.1 * (digitsOfPrecision p + 2) := by
    have hnear := (abs_le.1 (abs_nearestNat_digitsIn_sub_le (abs_digitsIn_sub_le_of_le (hp.trans (by decide))))).1
    rw [exactDigits_eq] at hnear
    norm_num at hnear
    have hbits : (p : ℚ) ≤ 2251799813685248 := by exact_mod_cast hp
    have hcount : (11258999068426241 * (p + 1) : ℚ) ≤ 37401585325715770 * (nearestNat (digitsIn p) + 1) := by
      linarith
    have hcount : 11258999068426241 * (p + 1) ≤ 37401585325715770 * (nearestNat (digitsIn p) + 1) := by
      exact_mod_cast hcount
    simp only [digitsOfPrecision, bitsPerDigit, Nat.pow_eq, Nat.reducePow]
    omega
  refine (Nat.pow_lt_pow_iff_left (by decide : 10 * bitsPerDigit.1 ≠ 0)).1 ?_
  calc (2 ^ (p + 1)) ^ (10 * bitsPerDigit.1) = (2 ^ (10 * bitsPerDigit.1)) ^ (p + 1) := by
        rw [← Nat.pow_mul, ← Nat.pow_mul, Nat.mul_comm]
    _ < (10 ^ (10 * bitsPerDigit.2 + 1)) ^ (p + 1) := Nat.pow_lt_pow_left hlog (Nat.succ_ne_zero p)
    _ = 10 ^ ((10 * bitsPerDigit.2 + 1) * (p + 1)) := (Nat.pow_mul ..).symm
    _ ≤ 10 ^ (10 * bitsPerDigit.1 * (digitsOfPrecision p + 2)) := Nat.pow_le_pow_right (by decide) hdigits
    _ = (10 ^ (digitsOfPrecision p + 2)) ^ (10 * bitsPerDigit.1) := by rw [Nat.mul_comm, Nat.pow_mul]

end Number

end Reckoner
