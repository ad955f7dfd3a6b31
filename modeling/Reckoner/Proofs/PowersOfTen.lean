import Mathlib.Algebra.Order.Floor.Semifield
import Reckoner.Number.DecimalScale
import Reckoner.Proofs.DecimalDigits
import Reckoner.Proofs.EnclosedSeries
import Reckoner.Proofs.LiteralSign

/-! Products with powers of ten. The logarithms and exponentials behind their bounds enclose what they are
meant for, so that the integer part of such a product is exact, however large the power. -/

namespace Reckoner

namespace Bracket.Encloses
variable {w : ℕ}

theorem ln2 (w : ℕ) : (Bracket.ln2 w).Encloses (Real.log 2 * 2 ^ w) := by
  have hthird : (Bracket.ofFraction w 1 3).Encloses (1 / 3 * 2 ^ w) := by
    simpa using ofFraction (w := w) 1 (by decide : 0 < 3)
  have hlog : artanhLog (1 / 3) = Real.log 2 / 2 := by
    rw [artanhLog]
    norm_num
    ring
  have h := (artanh (by rw [abs_of_pos] <;> norm_num) hthird).scale 2
  have htwo : Real.log 2 * 2 ^ w = ((2 : ℤ) : ℝ) * (artanhLog (1 / 3) * 2 ^ w) := by
    rw [hlog]
    push_cast
    ring
  exact htwo ▸ h

theorem ln {n : ℕ} (hn : n ≠ 0) (k : ℤ) : (Bracket.ln w n k).Encloses (Real.log (n * 2 ^ (-k)) * 2 ^ w) := by
  have hlow := Nat.log2_self_le hn
  have hhigh := @Nat.lt_log2_self n
  have hlead : (0 : ℝ) < 2 ^ n.log2 := by positivity
  have hpos : (0 : ℝ) < n := by exact_mod_cast Nat.pos_of_ne_zero hn
  have hlow' : (2 ^ n.log2 : ℝ) ≤ n := by exact_mod_cast hlow
  have hhigh' : (n : ℝ) < 2 * 2 ^ n.log2 := by
    rw [Nat.pow_succ, mul_comm] at hhigh
    exact_mod_cast hhigh
  -- With its leading bit taken out, the logarithm of `n` is twice the inverse hyperbolic tangent of `t`.
  obtain ⟨t, ht⟩ : ∃ t : ℝ, t = (n - 2 ^ n.log2) / (n + 2 ^ n.log2) := ⟨_, rfl⟩
  have hsmall : |t| ≤ 1 / 2 := by
    rw [ht, abs_of_nonneg (div_nonneg (by linarith) (by linarith)), div_le_iff₀ (by linarith)]
    linarith
  have hquotient : (1 + t) / (1 - t) = n / 2 ^ n.log2 := by
    rw [ht]
    field_simp
    ring
  have hz : (Bracket.ofFraction w (n - 2 ^ n.log2) (n + 2 ^ n.log2)).Encloses (t * 2 ^ w) := by
    have h := ofFraction (w := w) (n - 2 ^ n.log2) (by omega : 0 < n + 2 ^ n.log2)
    rw [Nat.cast_sub hlow, Nat.cast_add, Nat.cast_pow, Nat.cast_ofNat] at h
    exact ht ▸ h
  have hlog : Real.log (n * 2 ^ (-k)) * 2 ^ w =
      ((2 : ℤ) : ℝ) * (artanhLog t * 2 ^ w) + ((n.log2 - k : ℤ) : ℝ) * (Real.log 2 * 2 ^ w) := by
    rw [artanhLog, hquotient, Real.log_mul hpos.ne' (by positivity), Real.log_zpow,
      Real.log_div hpos.ne' hlead.ne', Real.log_pow]
    push_cast
    ring
  exact hlog ▸ ((artanh hsmall hz).scale 2).add ((ln2 w).scale (n.log2 - k))

/-- The exponential of what remains when a multiple of a logarithm is taken off. -/
theorem exp? {x r : Bracket} {a : ℝ} {k : ℤ} (hx : x.Encloses (a * 2 ^ w)) (h : Bracket.exp? w x = some (r, k)) :
    r.Encloses (Real.exp a * 2 ^ (-k) * 2 ^ w) := by
  obtain ⟨⟨rest, j⟩, hreduce, hr⟩ := Option.bind_eq_some_iff.1 h
  cases hr
  rw [reduce?] at hreduce
  split at hreduce
  · cases hreduce
  · simp only at hreduce
    split at hreduce
    · rename_i hsize
      cases hreduce
      generalize (2 * x.lo + (Bracket.ln2 w).lo) / (2 * (Bracket.ln2 w).lo) = j at hsize ⊢
      have hrest : (x.sub (Bracket.scale j (Bracket.ln2 w))).Encloses ((a - j * Real.log 2) * 2 ^ w) := by
        have h : (a - j * Real.log 2) * 2 ^ w = a * 2 ^ w - j * (Real.log 2 * 2 ^ w) := by ring
        exact h ▸ hx.sub ((ln2 w).scale j)
      have hone : |a - j * Real.log 2| ≤ 1 := by
        have hpow : (0 : ℝ) < 2 ^ w := by positivity
        have hunits : ((x.sub (Bracket.scale j (Bracket.ln2 w))).size : ℝ) ≤ 2 ^ w := by
          rw [Nat.shiftLeft_eq, one_mul] at hsize
          exact_mod_cast hsize
        have hle := hrest.abs_le_size.trans hunits
        rw [abs_mul, abs_of_pos hpow] at hle
        exact le_of_mul_le_mul_right (hle.trans_eq (one_mul _).symm) hpow
      have hexp : Real.exp (a - j * Real.log 2) = Real.exp a * 2 ^ (-j) := by
        rw [sub_eq_add_neg, Real.exp_add, ← neg_mul, ← Int.cast_neg, ← Real.log_zpow, Real.exp_log (by positivity)]
      exact hexp ▸ expSmall hone hrest
    · cases hreduce

end Bracket.Encloses

/-- What the function sees is the same for all that lies within bounds on which it agrees. -/
theorem of_settle? {α : Type} [DecidableEq α] {view : Dyadic → α} {bounds : Nat → Option (Dyadic × Dyadic)}
    {Q : α → Prop} (h : ∀ w lo hi, bounds w = some (lo, hi) → view lo = view hi → Q (view lo))
    {fuel w : Nat} {a : α} (hs : settle? view bounds fuel w = some a) : Q a := by
  induction fuel generalizing w with
  | zero => cases hs
  | succ fuel ih =>
    rw [settle?] at hs
    split at hs
    · rename_i lo hi hbounds
      split at hs
      · rename_i hview
        cases hs
        exact h w lo hi hbounds hview
      · exact ih hs
    · exact ih hs

namespace Decimal

/-- A number lies between two powers of ten that its digits tell. -/
theorem digits_bounds {n : ℕ} (hn : n ≠ 0) :
    10 ^ ((digits n).length - 1) ≤ n ∧ n < 10 ^ ((digits n).length - 1 + 1) := by
  obtain ⟨d, ds, hds, hd⟩ := exists_digitsBefore_eq hn []
  have hdigits := allDigits_digits n
  have hvalue := value_digits n
  have hhigh := hdigits.value_bounds.2
  rw [digits, hds] at hdigits hvalue hhigh ⊢
  have hlow := hdigits.pow_le_value (mt Int.ofNat_eq_zero.1 hd)
  rw [List.map_cons] at hvalue hhigh
  rw [hvalue] at hlow hhigh
  rw [List.length_map] at hlow
  rw [List.length_cons, List.length_map] at hhigh
  rw [List.length_cons, Nat.add_sub_cancel]
  exact ⟨by exact_mod_cast hlow, by exact_mod_cast hhigh⟩

end Decimal

namespace Binary

theorem toRat_eq (n k : Int) (h : n % 2 = 1) : (Dyadic.ofOdd n k h).toRat = n * 2 ^ (-k) :=
  Dyadic.toRat_ofOdd_eq_mul_two_pow

theorem toRat_shiftLeft (x : Dyadic) (i : Int) : (x <<< i).toRat = x.toRat * 2 ^ i := by
  cases x with
  | zero => exact (zero_mul _).symm
  | ofOdd n k h =>
    change (Dyadic.ofOdd n (k - i) h).toRat = _
    rw [toRat_eq, toRat_eq, mul_assoc, ← zpow_add₀ (by norm_num)]
    ring_nf

theorem isNegative_iff : isNegative x = true ↔ x.toRat < 0 := by
  cases x with
  | zero => simp [isNegative]
  | ofOdd n k h =>
    have hpow : (0 : ℚ) < 2 ^ (-k) := by positivity
    rw [isNegative, decide_eq_true_iff, toRat_eq, ← not_le, ← not_le, mul_nonneg_iff_of_pos_right hpow,
      Int.cast_nonneg_iff]

/-- The numerator of a dyadic that is not negative. -/
theorem natAbs_of_nonneg {n k : ℤ} {hn : n % 2 = 1} (h : 0 ≤ (Dyadic.ofOdd n k hn).toRat) :
    0 < n ∧ (n : ℚ) = (n.natAbs : ℕ) := by
  rw [toRat_eq, mul_nonneg_iff_of_pos_right (by positivity : (0 : ℚ) < 2 ^ (-k)), Int.cast_nonneg_iff] at h
  exact ⟨by omega, by rw [← Int.cast_natCast, Int.natAbs_of_nonneg h]⟩

theorem floor_eq {x : Dyadic} (h : 0 ≤ x.toRat) : floor x = ⌊x.toRat⌋₊ := by
  cases x with
  | zero => simp [floor]
  | ofOdd n k hn =>
    rw [floor, toRat_eq, (natAbs_of_nonneg h).2]
    split
    · rename_i hk
      have hexponent : -k = ((-k).toNat : ℕ) := (Int.toNat_of_nonneg (by omega)).symm
      have hwhole : (n.natAbs : ℚ) * 2 ^ (-k).toNat = (n.natAbs * 2 ^ (-k).toNat : ℕ) := by push_cast; rfl
      rw [hexponent, zpow_natCast, Int.toNat_natCast, Nat.shiftLeft_eq, hwhole, Nat.floor_natCast]
    · rename_i hk
      have hexponent : k = (k.toNat : ℕ) := (Int.toNat_of_nonneg (by omega)).symm
      have hquotient : (n.natAbs : ℚ) * (2 ^ k.toNat)⁻¹ = n.natAbs / (2 ^ k.toNat : ℕ) := by push_cast; rfl
      rw [hexponent, zpow_neg, zpow_natCast, Int.toNat_natCast, Nat.shiftRight_eq_div_pow, hquotient,
        Nat.floor_div_eq_div]

/-- The bounds on a product with a power of ten are bounds. -/
theorem decimalBounds_spec {n k : ℤ} {hn : n % 2 = 1} (hpos : 0 < n) {exponent : ℤ} {w : ℕ} {lo hi : Dyadic}
    (h : decimalBounds (.ofOdd n k hn) exponent w = some (lo, hi)) :
    lo.toRat ≤ (Dyadic.ofOdd n k hn).toRat * 10 ^ exponent ∧
      (Dyadic.ofOdd n k hn).toRat * 10 ^ exponent ≤ hi.toRat := by
  simp only [decimalBounds] at h
  obtain ⟨⟨r, j⟩, hexp, hbounds⟩ := Option.map_eq_some_iff.1 h
  have hnat : ((n.natAbs : ℕ) : ℝ) = n := by rw [← Int.cast_natCast, Int.natAbs_of_nonneg hpos.le]
  have hreal : (0 : ℝ) < n := by exact_mod_cast hpos
  have hlog := (Bracket.Encloses.ln (w := w) (by omega : n.natAbs ≠ 0) 0).add
    ((Bracket.Encloses.ln (w := w) (by decide : 5 ≠ 0) 0).scale exponent)
  rw [neg_zero, zpow_zero, mul_one, mul_one, hnat, Nat.cast_ofNat, ← mul_assoc, ← add_mul] at hlog
  have hr := hlog.exp? hexp
  have hvalue : Real.exp (Real.log n + exponent * Real.log 5) = n * 5 ^ exponent := by
    rw [Real.exp_add, Real.exp_log hreal, ← Real.log_zpow, Real.exp_log (by positivity)]
  rw [hvalue] at hr
  have hscale (m : ℤ) : ((Dyadic.ofIntWithPrec m (w - (j + exponent - k))).toRat : ℝ) =
      m * 2 ^ (j + exponent - k - w) := by
    rw [Dyadic.toRat_ofIntWithPrec_eq_mul_two_pow, neg_sub]
    push_cast
    rfl
  have hproduct : (((Dyadic.ofOdd n k hn).toRat * 10 ^ exponent : ℚ) : ℝ) =
      n * 5 ^ exponent * 2 ^ (-j) * 2 ^ w * 2 ^ (j + exponent - k - w) := by
    have hten : (10 : ℝ) ^ exponent = 5 ^ exponent * 2 ^ exponent := by
      rw [← mul_zpow]
      norm_num
    have htwo : (2 : ℝ) ^ (-k) * 2 ^ exponent = 2 ^ (-j) * 2 ^ w * 2 ^ (j + exponent - k - w) := by
      rw [← zpow_natCast, ← zpow_add₀ two_ne_zero, ← zpow_add₀ two_ne_zero, ← zpow_add₀ two_ne_zero]
      congr 1
      ring
    rw [toRat_eq]
    push_cast
    rw [hten]
    linear_combination (n * 5 ^ exponent : ℝ) * htwo
  have hunit : (0 : ℝ) ≤ 2 ^ (j + exponent - k - w) := by positivity
  cases hbounds
  constructor
  · rw [← Rat.cast_le (K := ℝ), hproduct, hscale]
    exact mul_le_mul_of_nonneg_right hr.lo_le hunit
  · rw [← Rat.cast_le (K := ℝ), hproduct, hscale]
    exact mul_le_mul_of_nonneg_right hr.le_hi hunit

/-- A power is a quotient of natural numbers, one of them one. -/
theorem zpow_eq_quotient (b : ℕ) (e : ℤ) :
    (((if 0 ≤ e then b ^ e.natAbs else 1 : ℕ) : ℚ) / ((if 0 ≤ -e - 1 then b ^ e.natAbs else 1 : ℕ) : ℚ)) =
      (b : ℚ) ^ e := by
  rcases le_or_gt 0 e with he | he
  · have hexponent : (b : ℚ) ^ e = b ^ e.natAbs := by rw [← zpow_natCast, Int.natAbs_of_nonneg he]
    rw [if_pos he, if_neg (by omega), hexponent]
    push_cast
    exact div_one _
  · have hexponent : (b : ℚ) ^ e = ((b : ℚ) ^ e.natAbs)⁻¹ := by
      rw [← zpow_natCast, Int.ofNat_natAbs_of_nonpos he.le, zpow_neg, inv_inv]
    rw [if_neg (by omega), if_pos (by omega), hexponent]
    push_cast
    exact one_div _

private theorem exactInteger_eq {n k : ℤ} {hn : n % 2 = 1} (h : 0 ≤ (Dyadic.ofOdd n k hn).toRat) (exponent : ℤ) :
    exactInteger (· / ·) n.natAbs k exponent = ⌊(Dyadic.ofOdd n k hn).toRat * 10 ^ exponent⌋₊ := by
  have hten := zpow_eq_quotient 10 exponent
  have htwo := zpow_eq_quotient 2 (-k)
  rw [Int.natAbs_neg, neg_neg] at htwo
  rw [toRat_eq, (natAbs_of_nonneg h).2, exactInteger]
  simp only [Nat.pow_eq]
  rw [← Nat.floor_div_eq_div (K := ℚ), Nat.cast_mul, Nat.cast_mul, Nat.cast_mul, mul_div_mul_comm, mul_div_assoc,
    htwo, hten, Nat.cast_ofNat, Nat.cast_ofNat, mul_right_comm]

/-- A product with a power of ten is cut off exactly. -/
theorem scaledFloor_eq {p : Nat} {x : Dyadic} (h : 0 ≤ x.toRat) (exponent : ℤ) :
    scaledFloor p x exponent = ⌊x.toRat * 10 ^ exponent⌋₊ := by
  cases x with
  | zero => simp [scaledFloor, scaledInteger]
  | ofOdd n k hn =>
    rw [scaledFloor, scaledInteger]
    split
    · exact exactInteger_eq h exponent
    · split
      · rename_i m hm
        refine of_settle? (Q := fun m => m = ⌊(Dyadic.ofOdd n k hn).toRat * 10 ^ exponent⌋₊)
          (fun w lo hi hbounds hview => ?_) hm
        obtain ⟨hlow, hhigh⟩ := decimalBounds_spec (natAbs_of_nonneg h).1 hbounds
        have hlo : 0 ≤ lo.toRat :=
          not_lt.1 (mt isNegative_iff.2 (by simp [isNegative_decimalBounds hbounds]))
        have hhi : 0 ≤ hi.toRat := hlo.trans (hlow.trans hhigh)
        rw [floor_eq hlo, floor_eq hhi] at hview
        rw [floor_eq hlo]
        exact le_antisymm (Nat.floor_mono hlow) (hview ▸ Nat.floor_mono hhigh)
      · exact exactInteger_eq h exponent

/-- The bounds on the decimal logarithm of a power of two are bounds. -/
theorem log10PowerBounds_spec {n w : ℕ} {lo hi : Dyadic} (h : log10PowerBounds n w = some (lo, hi)) :
    0 ≤ lo.toRat ∧ (lo.toRat : ℝ) ≤ n * (Real.log 2 / Real.log 10) ∧
      n * (Real.log 2 / Real.log 10) ≤ (hi.toRat : ℝ) := by
  obtain ⟨b, hb, hbounds⟩ := Option.map_eq_some_iff.1 h
  have hten := Bracket.Encloses.ln (w := w) (by decide : 10 ≠ 0) 0
  rw [neg_zero, zpow_zero, mul_one, Nat.cast_ofNat] at hten
  have hquotient : (0 : ℝ) ≤ Real.log 2 / Real.log 10 :=
    div_nonneg (Real.log_nonneg (by norm_num)) (Real.log_nonneg (by norm_num))
  have hscaled := (((Bracket.Encloses.ln2 w).div? hten hb).notNegative (by positivity)).scale n
  have hpow : (0 : ℝ) < 2 ^ w := by positivity
  have hscale (m : ℤ) : ((Dyadic.ofIntWithPrec m (w - 0)).toRat : ℝ) = m / 2 ^ w := by
    rw [Dyadic.toRat_ofIntWithPrec_eq_mul_two_pow, sub_zero, zpow_neg, zpow_natCast, div_eq_mul_inv]
    push_cast
    rfl
  have hlo : 0 ≤ (b.notNegative.scale n).lo := by
    rw [Bracket.scale, if_pos (Int.natCast_nonneg n)]
    exact Int.mul_nonneg (Int.natCast_nonneg n) (le_max_left _ _)
  cases hbounds
  refine ⟨?_, ?_, ?_⟩
  · rw [Dyadic.toRat_ofIntWithPrec_eq_mul_two_pow]
    exact mul_nonneg (by exact_mod_cast hlo) (by positivity)
  · rw [hscale, div_le_iff₀ hpow, mul_assoc]
    exact_mod_cast hscaled.lo_le
  · rw [hscale, le_div_iff₀ hpow, mul_assoc]
    exact_mod_cast hscaled.le_hi

/-- The integer part of the decimal logarithm of a power of two tells between which powers of ten it lies. -/
theorem log10Power_spec (n : ℕ) : 10 ^ log10Power n ≤ 2 ^ n ∧ 2 ^ n < 10 ^ (log10Power n + 1) := by
  unfold log10Power
  split
  · rename_i m hm
    refine of_settle? (Q := fun m => 10 ^ m ≤ 2 ^ n ∧ 2 ^ n < 10 ^ (m + 1)) (fun w lo hi hbounds hview => ?_) hm
    obtain ⟨hlo, hlow, hhigh⟩ := log10PowerBounds_spec hbounds
    have hten : 0 < Real.log 10 := Real.log_pos (by norm_num)
    have hhi : (0 : ℚ) ≤ hi.toRat := by
      rw [← Rat.cast_le (K := ℝ)]
      exact (Rat.cast_le.2 hlo).trans (hlow.trans hhigh)
    rw [floor_eq hlo, floor_eq hhi] at hview
    rw [floor_eq hlo]
    have hbelow : ((⌊lo.toRat⌋₊ : ℕ) : ℝ) ≤ lo.toRat := by exact_mod_cast Nat.floor_le hlo
    have habove : (hi.toRat : ℝ) < ((⌊lo.toRat⌋₊ + 1 : ℕ) : ℝ) := by
      rw [hview]
      exact_mod_cast Nat.lt_floor_add_one hi.toRat
    constructor
    · have h := hbelow.trans hlow
      rw [← mul_div_assoc, le_div_iff₀ hten, ← Real.log_pow, ← Real.log_pow,
        Real.log_le_log_iff (by positivity) (by positivity)] at h
      exact_mod_cast h
    · have h := hhigh.trans_lt habove
      rw [← mul_div_assoc, div_lt_iff₀ hten, ← Real.log_pow, ← Real.log_pow,
        Real.log_lt_log_iff (by positivity) (by positivity)] at h
      exact_mod_cast h
  · exact Decimal.digits_bounds (Nat.pow_pos two_pos).ne'

private theorem log10Power_le (n : ℕ) : log10Power n ≤ n :=
  (Nat.pow_le_pow_iff_right (by decide : 1 < 10)).1
    ((log10Power_spec n).1.trans (Nat.pow_le_pow_left (by decide) n))

/-- A decimal exponent that is rounded toward zero leaves more than a tenth of the power of two. -/
theorem tenth_lt_two_zpow_mul (e : ℤ) : (1 / 10 : ℚ) < 2 ^ e * 10 ^ (-decimalExponent true e) := by
  obtain ⟨hlow, hhigh⟩ := log10Power_spec e.natAbs
  have hlow : (10 : ℚ) ^ log10Power e.natAbs ≤ 2 ^ e.natAbs := by exact_mod_cast hlow
  have hhigh : (2 : ℚ) ^ e.natAbs < 10 ^ log10Power e.natAbs * 10 := by exact_mod_cast hhigh
  rw [decimalExponent]
  rcases lt_or_ge e 0 with he | he
  · have hpow : (2 : ℚ) ^ e = (2 ^ e.natAbs)⁻¹ := by
      rw [← zpow_natCast, ← zpow_neg, Int.ofNat_natAbs_of_nonpos he.le, neg_neg]
    rw [if_pos he, if_pos rfl, neg_neg, zpow_natCast, hpow, inv_mul_eq_div, lt_div_iff₀ (by positivity)]
    linarith
  · have hpow : (2 : ℚ) ^ e = 2 ^ e.natAbs := by
      rw [← zpow_natCast, Int.natAbs_of_nonneg he]
    rw [if_neg he.not_gt, hpow, zpow_neg, zpow_natCast, ← div_eq_mul_inv, lt_div_iff₀ (by positivity)]
    linarith

/-- A decimal exponent is hardly larger than the binary one. -/
theorem natAbs_decimalExponent_le (towardZero : Bool) (e : ℤ) :
    (decimalExponent towardZero e).natAbs ≤ e.natAbs + 1 := by
  have hle := log10Power_le e.natAbs
  unfold decimalExponent
  dsimp only
  split
  · split <;> omega
  · omega

end Binary

end Reckoner
