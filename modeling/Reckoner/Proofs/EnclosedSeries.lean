import Reckoner.Proofs.Enclosures

/-! The series that logarithms and exponentials are summed by enclose them: the brackets of the partial sums
are widened by more than what is left out. -/

namespace Reckoner.Bracket
open Finset

/-- The partial sums of the inverse hyperbolic tangent. -/
noncomputable def artanhSum (t : ℝ) (n : ℕ) : ℝ :=
  ∑ i ∈ range n, t ^ (2 * i + 1) / (2 * i + 1)

/-- The partial sums of the exponential. -/
noncomputable def expSum (t : ℝ) (n : ℕ) : ℝ :=
  ∑ i ∈ range n, t ^ i / i.factorial

/-- The inverse hyperbolic tangent as a logarithm. -/
noncomputable def artanhLog (t : ℝ) : ℝ :=
  1 / 2 * Real.log ((1 + t) / (1 - t))

variable {t : ℝ}

/-- What is left out of the inverse hyperbolic tangent is hardly more than the next power. -/
theorem abs_artanhLog_sub_le (ht : |t| ≤ 1 / 2) (n : ℕ) :
    |artanhLog t - artanhSum t n| ≤ 4 / 3 * |t ^ (2 * n + 1)| := by
  have hsquare : t ^ 2 ≤ 1 / 4 := by
    rw [← sq_abs]
    nlinarith [abs_nonneg t]
  have h := Real.sum_range_sub_log_div_le (lt_of_le_of_lt ht (by norm_num)) n
  calc |artanhLog t - artanhSum t n| ≤ |t| ^ (2 * n + 1) / (1 - t ^ 2) := h
    _ ≤ |t| ^ (2 * n + 1) / (3 / 4) := div_le_div_of_nonneg_left (by positivity) (by norm_num) (by linarith)
    _ = 4 / 3 * |t ^ (2 * n + 1)| := by
      rw [abs_pow]
      ring

/-- What is left out of the exponential is no more than the last term. -/
theorem abs_exp_sub_le (ht : |t| ≤ 1) {n : ℕ} (hn : 1 ≤ n) :
    |Real.exp t - expSum t (n + 1)| ≤ |t ^ n / n.factorial| := by
  have hcount : (n + 2 : ℝ) ≤ (n + 1) * (n + 1) := by
    have : (1 : ℝ) ≤ n := by exact_mod_cast hn
    nlinarith
  have hfactorial : (0 : ℝ) < n.factorial := by exact_mod_cast n.factorial_pos
  have h := Real.exp_bound ht (Nat.succ_pos n)
  calc |Real.exp t - expSum t (n + 1)|
      ≤ |t| ^ (n + 1) * ((n + 1).succ / ((n + 1).factorial * (n + 1 : ℕ))) := h
    _ = |t| ^ n / n.factorial * (|t| * ((n + 2) / ((n + 1) * (n + 1)))) := by
      rw [Nat.factorial_succ]
      push_cast
      field_simp
      ring
    _ ≤ |t| ^ n / n.factorial * (1 * 1) := by
      refine mul_le_mul_of_nonneg_left (mul_le_mul ht ?_ (by positivity) zero_le_one) (by positivity)
      exact (div_le_one (by positivity)).2 hcount
    _ = |t ^ n / n.factorial| := by rw [abs_div, abs_pow, abs_of_pos hfactorial, one_mul, mul_one]

namespace Encloses
variable {a b x power sum term z : Bracket} {w : ℕ}

/-- In units, what is left out is small if the power next to it is. -/
theorem abs_mul_sub_mul_le {u v r c : ℝ} (h : |u - v| ≤ c * |r|) :
    |u * 2 ^ w - v * 2 ^ w| ≤ c * |r * 2 ^ w| := by
  have hpow : (0 : ℝ) < 2 ^ w := by positivity
  rw [← sub_mul, abs_mul, abs_mul, abs_of_pos hpow, ← mul_assoc]
  exact mul_le_mul_of_nonneg_right h hpow.le

/-- From one odd power to the next. -/
theorem nextOddPower {j : ℕ} (hx : x.Encloses (t ^ 2 * 2 ^ w))
    (hpower : power.Encloses (t ^ (2 * j + 1) * 2 ^ w)) :
    (power.mul w x).Encloses (t ^ (2 * (j + 1) + 1) * 2 ^ w) := by
  have h : t ^ (2 * (j + 1) + 1) * 2 ^ w = t ^ (2 * j + 1) * 2 ^ w * (t ^ 2 * 2 ^ w) / 2 ^ w := by
    field_simp
    ring
  exact h ▸ hpower.mul hx

/-- The odd series encloses the inverse hyperbolic tangent if its parts enclose a partial sum and the last
power in it. -/
theorem sumOddQuotients (ht : |t| ≤ 1 / 2) (hx : x.Encloses (t ^ 2 * 2 ^ w)) (fuel j : ℕ)
    (hpower : power.Encloses (t ^ (2 * j + 1) * 2 ^ w))
    (hsum : sum.Encloses (artanhSum t (j + 1) * 2 ^ w)) :
    (sumOddQuotients w x fuel (j + 1) power sum).Encloses (artanhLog t * 2 ^ w) := by
  induction fuel generalizing j power sum with
  | zero =>
    refine hsum.widen ((abs_mul_sub_mul_le (abs_artanhLog_sub_le ht (j + 1))).trans ?_)
    have hsquare : |t ^ 2| ≤ 1 / 4 := by
      rw [abs_pow]
      nlinarith [abs_nonneg t]
    have hlast : |t ^ (2 * (j + 1) + 1) * 2 ^ w| ≤ 1 / 4 * power.size := by
      have h : t ^ (2 * (j + 1) + 1) * 2 ^ w = t ^ 2 * (t ^ (2 * j + 1) * 2 ^ w) := by ring
      rw [h, abs_mul]
      exact mul_le_mul hsquare hpower.abs_le_size (abs_nonneg _) (by norm_num)
    push_cast
    linarith [(Nat.cast_nonneg power.size : (0 : ℝ) ≤ power.size)]
  | succ fuel ih =>
    have hnext := nextOddPower hx hpower
    rw [Bracket.sumOddQuotients]
    split
    · rename_i hsmall
      have hone : ((power.mul w x).size : ℝ) ≤ 1 := by exact_mod_cast hsmall
      refine hsum.widen ((abs_mul_sub_mul_le (abs_artanhLog_sub_le ht (j + 1))).trans ?_)
      push_cast
      linarith [hnext.abs_le_size]
    · have hadded : artanhSum t (j + 1 + 1) * 2 ^ w = artanhSum t (j + 1) * 2 ^ w +
          t ^ (2 * (j + 1) + 1) * 2 ^ w / ((2 * (j + 1)).succ : ℕ) := by
        rw [artanhSum, sum_range_succ, ← artanhSum]
        push_cast
        ring
      exact ih (j + 1) hnext (hadded ▸ hsum.add (hnext.divNat (Nat.succ_pos (2 * (j + 1)))))

theorem artanh (ht : |t| ≤ 1 / 2) (hz : z.Encloses (t * 2 ^ w)) :
    (artanh w z).Encloses (artanhLog t * 2 ^ w) := by
  have hx : (z.mul w z).Encloses (t ^ 2 * 2 ^ w) := by
    have h : t ^ 2 * 2 ^ w = t * 2 ^ w * (t * 2 ^ w) / 2 ^ w := by
      field_simp
    exact h ▸ hz.mul hz
  have hfirst : artanhSum t 1 = t := by simp [artanhSum]
  exact sumOddQuotients ht hx (w + 8) 0 (by simpa using hz) (by simpa [hfirst] using hz)

/-- The factorial series encloses the exponential if its parts enclose a partial sum and the last term
in it. -/
theorem sumRatios (ht : |t| ≤ 1) (hx : x.Encloses (t * 2 ^ w)) (fuel j : ℕ) (hstart : 0 < fuel ∨ 0 < j)
    (hterm : term.Encloses (t ^ j / j.factorial * 2 ^ w))
    (hsum : sum.Encloses (expSum t (j + 1) * 2 ^ w)) :
    (sumRatios w x (· + 1) fuel j term sum).Encloses (Real.exp t * 2 ^ w) := by
  induction fuel generalizing j term sum with
  | zero =>
    have hj : 1 ≤ j := hstart.resolve_left (Nat.lt_irrefl 0)
    have htail := abs_mul_sub_mul_le (w := w) (c := 1) ((abs_exp_sub_le ht hj).trans_eq (one_mul _).symm)
    refine hsum.widen (htail.trans ?_)
    push_cast
    linarith [hterm.abs_le_size]
  | succ fuel ih =>
    have hnext : ((term.mul w x).divNat (j + 1)).Encloses (t ^ (j + 1) / (j + 1).factorial * 2 ^ w) := by
      have h : t ^ (j + 1) / (j + 1).factorial * 2 ^ w =
          t ^ j / j.factorial * 2 ^ w * (t * 2 ^ w) / 2 ^ w / (j + 1 : ℕ) := by
        rw [Nat.factorial_succ]
        push_cast
        field_simp
        ring
      exact h ▸ (hterm.mul hx).divNat (Nat.succ_pos j)
    have hadded : expSum t (j + 1 + 1) * 2 ^ w =
        expSum t (j + 1) * 2 ^ w + t ^ (j + 1) / (j + 1).factorial * 2 ^ w := by
      rw [expSum, sum_range_succ, ← expSum]
      ring
    have hlonger := hadded ▸ hsum.add hnext
    rw [Bracket.sumRatios]
    split
    · rename_i hsmall
      have hone : (((term.mul w x).divNat (j + 1)).size : ℝ) ≤ 1 := by exact_mod_cast hsmall.1
      have htail := abs_mul_sub_mul_le (w := w) (c := 1)
        ((abs_exp_sub_le ht (Nat.succ_pos j)).trans_eq (one_mul _).symm)
      refine hlonger.widen (htail.trans ?_)
      push_cast
      linarith [hnext.abs_le_size]
    · exact ih (j + 1) (.inr (Nat.succ_pos j)) hnext hlonger

theorem expSmall {r : Bracket} (ht : |t| ≤ 1) (hr : r.Encloses (t * 2 ^ w)) :
    (expSmall w r).Encloses (Real.exp t * 2 ^ w) := by
  have hone : (Bracket.one w).Encloses (t ^ 0 / (0).factorial * 2 ^ w) := by simpa using one w
  have hfirst : (Bracket.one w).Encloses (expSum t 1 * 2 ^ w) := by simpa [expSum] using one w
  exact (sumRatios ht hr (w + 8) 0 (.inl (Nat.succ_pos _)) hone hfirst).notNegative (by positivity)

end Encloses

end Reckoner.Bracket
