import Mathlib.Analysis.SpecialFunctions.Log.Deriv
import Reckoner.Number.Bracket

/-! Brackets enclose what they are computed for: each operation on brackets that enclose two reals gives one
that encloses the result, and each series one that encloses its sum. -/

namespace Reckoner

theorem cast_div_le (n : ℤ) {d : ℤ} (hd : 0 < d) : ((n / d : ℤ) : ℝ) ≤ n / d := by
  have hpos : (0 : ℝ) < d := by exact_mod_cast hd
  rw [le_div_iff₀ hpos]
  exact_mod_cast Int.ediv_mul_le n hd.ne'

namespace Bracket

theorem le_ceilDiv (n : ℤ) {d : ℤ} (hd : 0 < d) : (n / d : ℝ) ≤ ceilDiv n d := by
  have h := cast_div_le (-n) hd
  rw [Int.cast_neg, neg_div] at h
  rw [ceilDiv, Int.cast_neg]
  linarith

theorem shiftRight_le (n : ℤ) (s : ℕ) : ((n >>> s : ℤ) : ℝ) ≤ n / 2 ^ s := by
  rw [Int.shiftRight_eq_div_pow]
  exact_mod_cast cast_div_le n (by positivity : (0 : ℤ) < ((2 ^ s : ℕ) : ℤ))

private theorem le_ceilShift (n : ℤ) (s : ℕ) : (n / 2 ^ s : ℝ) ≤ ceilShift n s := by
  have h := shiftRight_le (-n) s
  rw [Int.cast_neg, neg_div] at h
  rw [ceilShift, Int.cast_neg]
  linarith

/-- A real number, in units, lies within the bounds. -/
structure Encloses (b : Bracket) (x : ℝ) : Prop where
  lo_le : b.lo ≤ x
  le_hi : x ≤ b.hi

/-- A factor between two reals. -/
theorem mul_bounds {x y a b : ℝ} (ha : a ≤ x) (hb : x ≤ b) :
    min (a * y) (b * y) ≤ x * y ∧ x * y ≤ max (a * y) (b * y) := by
  rcases le_total 0 y with hy | hy
  · exact ⟨(min_le_left _ _).trans (mul_le_mul_of_nonneg_right ha hy),
      (mul_le_mul_of_nonneg_right hb hy).trans (le_max_right _ _)⟩
  · exact ⟨(min_le_right _ _).trans (mul_le_mul_of_nonpos_right hb hy),
      (mul_le_mul_of_nonpos_right ha hy).trans (le_max_left _ _)⟩

namespace Encloses
variable {a b : Bracket} {x y : ℝ} {w : ℕ}

private theorem exact (n : ℤ) : (exact n).Encloses n :=
  ⟨le_rfl, le_rfl⟩

theorem one (w : ℕ) : (one w).Encloses (2 ^ w) := by
  have h : (((1 <<< w : ℕ) : ℤ) : ℝ) = 2 ^ w := by
    rw [Nat.shiftLeft_eq, one_mul]
    push_cast
    rfl
  exact h ▸ exact (1 <<< w : ℕ)

theorem add (ha : a.Encloses x) (hb : b.Encloses y) : (a.add b).Encloses (x + y) := by
  constructor
  · rw [Bracket.add, Int.cast_add]
    exact add_le_add ha.lo_le hb.lo_le
  · rw [Bracket.add, Int.cast_add]
    exact add_le_add ha.le_hi hb.le_hi

private theorem neg (ha : a.Encloses x) : a.neg.Encloses (-x) := by
  constructor
  · rw [Bracket.neg, Int.cast_neg]
    exact neg_le_neg ha.le_hi
  · rw [Bracket.neg, Int.cast_neg]
    exact neg_le_neg ha.lo_le

theorem sub (ha : a.Encloses x) (hb : b.Encloses y) : (a.sub b).Encloses (x - y) :=
  sub_eq_add_neg x y ▸ ha.add hb.neg

theorem scale (k : ℤ) (ha : a.Encloses x) : (a.scale k).Encloses (k * x) := by
  rw [Bracket.scale]
  split
  · rename_i hk
    have hk : (0 : ℝ) ≤ k := by exact_mod_cast hk
    exact ⟨by push_cast; exact mul_le_mul_of_nonneg_left ha.lo_le hk,
      by push_cast; exact mul_le_mul_of_nonneg_left ha.le_hi hk⟩
  · rename_i hk
    have hk : (k : ℝ) ≤ 0 := by exact_mod_cast (not_le.1 hk).le
    exact ⟨by push_cast; exact mul_le_mul_of_nonpos_left ha.le_hi hk,
      by push_cast; exact mul_le_mul_of_nonpos_left ha.lo_le hk⟩

/-- A wider bracket encloses what lies near. -/
theorem widen {margin : ℤ} (ha : a.Encloses x) (h : |y - x| ≤ margin) : (a.widen margin).Encloses y := by
  obtain ⟨hlow, hhigh⟩ := abs_le.1 h
  constructor
  · rw [Bracket.widen, Int.cast_sub]
    linarith [ha.lo_le]
  · rw [Bracket.widen, Int.cast_add]
    linarith [ha.le_hi]

theorem notNegative (ha : a.Encloses x) (hx : 0 ≤ x) : a.notNegative.Encloses x := by
  refine ⟨?_, ha.le_hi⟩
  rw [Bracket.notNegative, Int.cast_max, max_le_iff]
  exact ⟨by exact_mod_cast hx, ha.lo_le⟩

theorem abs_le_size (ha : a.Encloses x) : |x| ≤ a.size := by
  have hlo : ((a.lo.natAbs : ℤ) : ℝ) ≤ a.size := by exact_mod_cast le_max_left a.lo.natAbs a.hi.natAbs
  have hhi : ((a.hi.natAbs : ℤ) : ℝ) ≤ a.size := by exact_mod_cast le_max_right a.lo.natAbs a.hi.natAbs
  rw [Int.natCast_natAbs, Int.cast_abs] at hlo hhi
  exact abs_le.2 ⟨by linarith [ha.lo_le, neg_le_abs (a.lo : ℝ)], by linarith [ha.le_hi, le_abs_self (a.hi : ℝ)]⟩

theorem mul (ha : a.Encloses x) (hb : b.Encloses y) : (a.mul w b).Encloses (x * y / 2 ^ w) := by
  have hpow : (0 : ℝ) < 2 ^ w := by positivity
  obtain ⟨hlow, hhigh⟩ := mul_bounds (y := y) ha.lo_le ha.le_hi
  obtain ⟨hlow₁, hhigh₁⟩ := mul_bounds (y := (a.lo : ℝ)) hb.lo_le hb.le_hi
  obtain ⟨hlow₂, hhigh₂⟩ := mul_bounds (y := (a.hi : ℝ)) hb.lo_le hb.le_hi
  rw [mul_comm y, mul_comm (b.lo : ℝ), mul_comm (b.hi : ℝ)] at hlow₁ hhigh₁ hlow₂ hhigh₂
  constructor
  · refine (shiftRight_le _ w).trans (div_le_div_of_nonneg_right ?_ hpow.le)
    rw [least]
    push_cast
    exact (min_le_min hlow₁ hlow₂).trans hlow
  · refine le_trans (div_le_div_of_nonneg_right ?_ hpow.le) (le_ceilShift _ w)
    rw [greatest]
    push_cast
    exact hhigh.trans (max_le_max hhigh₁ hhigh₂)

theorem divNat {d : ℕ} (hd : 0 < d) (ha : a.Encloses x) : (a.divNat d).Encloses (x / d) := by
  have hd' : (0 : ℤ) < d := by exact_mod_cast hd
  have hpos : (0 : ℝ) ≤ d := Nat.cast_nonneg d
  constructor
  · refine (cast_div_le a.lo hd').trans ?_
    rw [Int.cast_natCast]
    exact div_le_div_of_nonneg_right ha.lo_le hpos
  · refine le_trans ?_ (le_ceilDiv a.hi hd')
    rw [Int.cast_natCast]
    exact div_le_div_of_nonneg_right ha.le_hi hpos

theorem ofFraction (n : ℕ) {d : ℕ} (hd : 0 < d) : (ofFraction w n d).Encloses (n / d * 2 ^ w) := by
  have hd' : (0 : ℤ) < d := by exact_mod_cast hd
  have hscaled : (((n <<< w : ℕ) : ℤ) : ℝ) / ((d : ℤ) : ℝ) = n / d * 2 ^ w := by
    rw [Nat.shiftLeft_eq]
    push_cast
    ring
  exact hscaled ▸ ⟨cast_div_le _ hd', le_ceilDiv _ hd'⟩

theorem div? {c : Bracket} (ha : a.Encloses (x * 2 ^ w)) (hb : b.Encloses (y * 2 ^ w))
    (h : a.div? w b = some c) : c.Encloses (x / y * 2 ^ w) := by
  rw [Bracket.div?] at h
  split at h
  · cases h
  · rename_i hlo
    cases h
    have hpow : (0 : ℝ) < 2 ^ w := by positivity
    have hlo : 0 < b.lo := not_le.1 hlo
    have hlo' : (0 : ℝ) < b.lo := by exact_mod_cast hlo
    have hy : 0 < y * 2 ^ w := hlo'.trans_le hb.lo_le
    have hhi' : (0 : ℝ) < b.hi := hy.trans_le hb.le_hi
    have hhi : 0 < b.hi := by exact_mod_cast hhi'
    have hshift (n : ℤ) : ((n <<< w : ℤ) : ℝ) = n * 2 ^ w := by
      rw [Int.shiftLeft_eq]
      push_cast
      rfl
    -- The quotient is the scaled numerator times the inverse of the denominator, which lies between the
    -- inverses of its bounds.
    have hquotient : x / y * 2 ^ w = (y * 2 ^ w)⁻¹ * (x * 2 ^ w * 2 ^ w) := by
      have : y ≠ 0 := fun h => by simp [h] at hy
      field_simp
    have hinv := inv_anti₀ hlo' hb.lo_le
    have hinv' := inv_anti₀ hy hb.le_hi
    have hpos : 0 ≤ (y * 2 ^ w)⁻¹ := (inv_pos.2 hy).le
    rw [hquotient]
    constructor
    · refine le_trans ?_ (mul_le_mul_of_nonneg_left (mul_le_mul_of_nonneg_right ha.lo_le hpow.le) hpos)
      refine le_trans ?_ (mul_bounds hinv' hinv).1
      rw [Int.cast_min, min_comm, inv_mul_eq_div, inv_mul_eq_div, ← hshift]
      exact min_le_min (cast_div_le _ hhi) (cast_div_le _ hlo)
    · refine (mul_le_mul_of_nonneg_left (mul_le_mul_of_nonneg_right ha.le_hi hpow.le) hpos).trans ?_
      refine (mul_bounds hinv' hinv).2.trans ?_
      rw [Int.cast_max, max_comm, inv_mul_eq_div, inv_mul_eq_div, ← hshift]
      exact max_le_max (le_ceilDiv _ hlo) (le_ceilDiv _ hhi)

end Encloses

end Bracket

end Reckoner
