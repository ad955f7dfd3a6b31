import Reckoner.Proofs.BinarySpacing

/-! Rounding to a binary precision: what is rounded has no more bits than the precision, and it differs from
the number that was meant by at most half a unit of its last bit, so that no other number of the precision is
nearer. A quotient is rounded by way of a number that only looks like it, and yet within half a unit of the
quotient itself. -/

namespace Reckoner

/-- The rounded quotient is no farther from the quotient than one half. -/
theorem nearestQuotient_bounds (n : Nat) {d : Nat} (hd : 0 < d) :
    2 * (nearestQuotient n d * d) ≤ 2 * n + d ∧ 2 * n ≤ 2 * (nearestQuotient n d * d) + d := by
  have hsplit := Nat.div_add_mod' n d
  have hmod := Nat.mod_lt n hd
  simp only [nearestQuotient]
  split
  · omega
  · split
    · rw [Nat.add_mul]
      omega
    · rcases Nat.mod_two_eq_zero_or_one (n / d) with h | h <;> rw [h, Nat.add_mul] <;> omega

theorem abs_nearestQuotient_mul_sub_le (n : Nat) {d : Nat} (hd : 0 < d) :
    |(nearestQuotient n d * d : ℚ) - n| ≤ d / 2 := by
  obtain ⟨hhigh, hlow⟩ := nearestQuotient_bounds n hd
  have hhigh : (2 * (nearestQuotient n d * d) : ℚ) ≤ 2 * n + d := by exact_mod_cast hhigh
  have hlow : (2 * n : ℚ) ≤ 2 * (nearestQuotient n d * d) + d := by exact_mod_cast hlow
  rw [abs_le]
  constructor <;> linarith

/-- An odd number is not halfway between multiples of a power of two above two, but one off at least. -/
theorem abs_nearestQuotient_mul_sub_le_of_odd {n d : Nat} (hn : n % 2 = 1) (hpos : 0 < d) (hd : 4 ∣ d) :
    |(nearestQuotient n d * d : ℚ) - n| ≤ d / 2 - 1 := by
  obtain ⟨hhigh, hlow⟩ := nearestQuotient_bounds n hpos
  obtain ⟨m, hm⟩ : 4 ∣ nearestQuotient n d * d := Dvd.dvd.mul_left hd _
  have hhigh : ((2 * (nearestQuotient n d * d) + 2 : ℕ) : ℚ) ≤ (2 * n + d : ℕ) := Nat.cast_le.2 (by omega)
  have hlow : ((2 * n + 2 : ℕ) : ℚ) ≤ (2 * (nearestQuotient n d * d) + d : ℕ) := Nat.cast_le.2 (by omega)
  push_cast at hhigh hlow
  rw [abs_le]
  constructor <;> linarith

theorem bitLength_le_iff {n p : Nat} : bitLength n ≤ p ↔ n < 2 ^ p := by
  rw [bitLength]
  split
  · rename_i hn
    simp [hn]
  · rename_i hn
    rw [Nat.add_one_le_iff, Nat.log2_lt hn]

namespace Binary
variable {p : Nat} {x v : Dyadic} {z : ℚ}

/-- A number of `p` bits that is `z` rounded: the error is at most half a unit of the last bit, and that of
no number of `p` bits is smaller. -/
structure Rounds (p : Nat) (z : ℚ) (v : Dyadic) : Prop where
  fits : Fits p v
  error : |v.toRat - z| ≤ |z| * 2 ^ (-p : ℤ)
  nearest : ∀ y, Fits p y → |v.toRat - z| ≤ |y.toRat - z|

/-- A power of two has one bit only, so that a significand may reach it. -/
theorem fits_ofIntWithPrec {m : Int} (hp : 1 ≤ p) (hm : m.natAbs ≤ 2 ^ p) (k : Int) :
    Fits p (.ofIntWithPrec m k) := by
  rw [Dyadic.ofIntWithPrec]
  split
  · exact Nat.zero_le p
  · rename_i hne
    have hodd := Int.shiftRight_trailingZeros_mod_two hne
    have hle : (m >>> m.trailingZeros).natAbs ≤ m.natAbs := by
      rw [Int.shiftRight_eq_div_pow]
      exact Int.natAbs_ediv_le_natAbs ..
    have heven : 2 ∣ 2 ^ p := dvd_pow_self 2 (by omega)
    rw [Fits, width, bitLength_le_iff]
    omega

theorem fits_shiftLeft (h : Fits p x) (i : Int) : Fits p (x <<< i) := by
  cases x <;> exact h

theorem fits_neg (h : Fits p x) : Fits p (-x) := by
  cases x with
  | zero => exact h
  | ofOdd n k hn =>
    rw [Dyadic.neg_ofOdd, Fits, width, Int.natAbs_neg]
    exact h

theorem fits_abs (h : Fits p x) : Fits p (abs x) := by
  rw [abs]
  split
  · exact fits_neg h
  · exact h

protected theorem neg_neg (x : Dyadic) : -(-x) = x :=
  Dyadic.toRat_inj.1 (by rw [Dyadic.toRat_neg, Dyadic.toRat_neg, neg_neg])

/-- What is nearest among the numbers of the precision stays so next to a power of two. -/
theorem nearest_mul {u : ℚ} (h : ∀ y, Fits p y → |u - z| ≤ |y.toRat - z|) (i : ℤ) {y : Dyadic}
    (hy : Fits p y) : |u * 2 ^ i - z * 2 ^ i| ≤ |y.toRat - z * 2 ^ i| := by
  have hshift : y.toRat = (y <<< (-i)).toRat * 2 ^ i := by
    rw [toRat_shiftLeft, mul_assoc, ← zpow_add₀ (by norm_num), neg_add_cancel, zpow_zero, mul_one]
  rw [hshift, ← sub_mul, ← sub_mul, abs_mul, abs_mul]
  exact mul_le_mul_of_nonneg_right (h _ (fits_shiftLeft hy _)) (abs_nonneg _)

namespace Rounds

theorem shiftLeft (h : Rounds p z v) (i : Int) : Rounds p (z * 2 ^ i) (v <<< i) := by
  have hpow : (0 : ℚ) < 2 ^ i := by positivity
  refine ⟨fits_shiftLeft h.fits i, ?_, fun y hy => ?_⟩
  · rw [toRat_shiftLeft, ← sub_mul, abs_mul, abs_mul, mul_right_comm]
    exact mul_le_mul_of_nonneg_right h.error (abs_nonneg _)
  · rw [toRat_shiftLeft]
    exact nearest_mul h.nearest i hy

theorem neg (h : Rounds p z v) : Rounds p (-z) (-v) := by
  refine ⟨fits_neg h.fits, ?_, fun y hy => ?_⟩
  · rw [Dyadic.toRat_neg, neg_sub_neg, abs_sub_comm, abs_neg]
    exact h.error
  · have hnearest := h.nearest (-y) (fits_neg hy)
    rw [Dyadic.toRat_neg] at hnearest
    rw [Dyadic.toRat_neg, neg_sub_neg, abs_sub_comm, sub_neg_eq_add]
    rwa [← neg_add', abs_neg] at hnearest

/-- A rounded number is not half as large or twice as large as the one that was meant. -/
theorem within (h : Rounds p z v) (hp : 1 ≤ p) : |v.toRat - z| ≤ |z| / 2 := by
  have hhalf : (2 : ℚ) ^ (-p : ℤ) ≤ 2 ^ (-1 : ℤ) := zpow_le_zpow_right₀ (by norm_num) (by omega)
  calc |v.toRat - z| ≤ |z| * 2 ^ (-p : ℤ) := h.error
    _ ≤ |z| * 2 ^ (-1 : ℤ) := mul_le_mul_of_nonneg_left hhalf (abs_nonneg z)
    _ = |z| / 2 := by rw [zpow_neg_one, div_eq_mul_inv]

theorem toRat_neg_iff (h : Rounds p z v) (hp : 1 ≤ p) : v.toRat < 0 ↔ z < 0 := by
  have hwithin := abs_le.1 (h.within hp)
  constructor
  · intro hv
    by_contra hz
    rw [abs_of_nonneg (not_lt.1 hz)] at hwithin
    linarith [not_lt.1 hz]
  · intro hz
    rw [abs_of_neg hz] at hwithin
    linarith

theorem ne_zero (h : Rounds p z v) (hp : 1 ≤ p) (hz : z ≠ 0) : v ≠ 0 := by
  rintro rfl
  have hwithin := h.within hp
  rw [Dyadic.toRat_zero, zero_sub, abs_neg] at hwithin
  linarith [abs_pos.2 hz]

end Rounds

/-- A number of more bits than the precision is large next to the unit of the last bit that is kept. -/
theorem half_unit_le {n : Nat} {t : ℚ} (hp : p < bitLength n) (ht : 2 ^ (bitLength n - 1) ≤ t) :
    ((2 ^ (bitLength n - p) : ℕ) : ℚ) / 2 ≤ t * 2 ^ (-p : ℤ) := by
  have hpow : (2 : ℚ) ^ (bitLength n - 1) = 2 ^ (bitLength n - p) / 2 * 2 ^ (p : ℤ) := by
    rw [zpow_natCast, div_mul_eq_mul_div, ← pow_add, eq_div_iff (by norm_num), ← pow_succ]
    congr 1
    omega
  rw [zpow_neg, ← div_eq_mul_inv, le_div_iff₀ (by positivity)]
  push_cast
  exact hpow ▸ ht

/-- A significand that is rounded to the last bit kept. It stands for a number `t` near it. -/
theorem rounds_significand {n : Nat} {t : ℚ} (hp : 1 ≤ p) (hlt : p < bitLength n)
    (ht : 2 ^ (bitLength n - 1) ≤ t)
    (herror : |(nearestQuotient n (2 ^ (bitLength n - p)) * (2 ^ (bitLength n - p) : ℕ) : ℚ) - t| ≤
      (2 ^ (bitLength n - p) : ℕ) / 2) (k : Int) :
    Rounds p (t * 2 ^ (-k))
      (.ofIntWithPrec (nearestQuotient n (2 ^ (bitLength n - p))) (k - (bitLength n - p : ℕ))) := by
  have hsmall : nearestQuotient n (2 ^ (bitLength n - p)) ≤ 2 ^ p := by
    have hn : n < 2 ^ p * 2 ^ (bitLength n - p) := by
      rw [← pow_add, Nat.add_sub_cancel' hlt.le]
      exact bitLength_le_iff.1 le_rfl
    have := (Nat.div_lt_iff_lt_mul (by positivity)).2 hn
    have := nearestQuotient_le n (2 ^ (bitLength n - p))
    omega
  have hpow : (0 : ℚ) < 2 ^ (-k) := by positivity
  have hvalue : (Dyadic.ofIntWithPrec (nearestQuotient n (2 ^ (bitLength n - p)))
      (k - (bitLength n - p : ℕ))).toRat =
        nearestQuotient n (2 ^ (bitLength n - p)) * (2 ^ (bitLength n - p) : ℕ) * 2 ^ (-k) := by
    rw [Dyadic.toRat_ofIntWithPrec_eq_mul_two_pow, neg_sub, sub_eq_add_neg, zpow_add₀ (by norm_num),
      zpow_natCast, mul_assoc]
    push_cast
    rfl
  refine ⟨fits_ofIntWithPrec hp (by rwa [Int.natAbs_natCast]) _, ?_, fun y hy => ?_⟩
  · rw [hvalue, ← sub_mul, abs_mul, abs_mul, abs_of_pos hpow, mul_right_comm]
    refine mul_le_mul_of_nonneg_right ?_ hpow.le
    rw [abs_of_nonneg (le_trans (by positivity) ht)]
    exact herror.trans (half_unit_le hlt ht)
  · have hunit : ((2 ^ (bitLength n - p) : ℕ) : ℚ) = 2 ^ ((bitLength n - p : ℕ) : ℤ) := by
      push_cast
      rw [zpow_natCast]
    have hfirst : ((bitLength n - p : ℕ) : ℤ) + p - 1 = (bitLength n - 1 : ℕ) := by omega
    rw [hunit] at herror
    rw [hvalue, hunit]
    refine nearest_mul (fun y hy => abs_sub_le_of_fits (m := nearestQuotient n _) hp ?_ herror hy) (-k) hy
    rwa [hfirst, zpow_natCast]

theorem rounds_of_fits (h : Fits p x) : Rounds p x.toRat x := by
  refine ⟨h, ?_, fun y _ => ?_⟩ <;> rw [sub_self, abs_zero] <;> positivity

theorem rounds_nearest (hp : 1 ≤ p) (x : Dyadic) : Rounds p x.toRat (nearest p x) := by
  by_cases hfits : Fits p x
  · rw [nearest_of_fits hfits]
    exact rounds_of_fits hfits
  cases x with
  | zero => exact absurd (Nat.zero_le p) hfits
  | ofOdd n k hn =>
    have hlt : p < bitLength n.natAbs := not_le.1 hfits
    have hne : n.natAbs ≠ 0 := by omega
    have hsize := rounds_significand hp hlt (by exact_mod_cast (bitLength_bounds hne).1)
      (abs_nearestQuotient_mul_sub_le n.natAbs (by positivity)) k
    simp only [nearest, if_neg (Nat.sub_ne_zero_of_lt hlt), withSign, decide_eq_true_iff, toRat_eq]
    split
    · rename_i hneg
      have hcast : (n : ℚ) = -(n.natAbs : ℕ) := by
        rw [Nat.cast_natAbs, abs_of_neg hneg, Int.cast_neg, neg_neg]
      rw [← Dyadic.neg_ofIntWithPrec, hcast, neg_mul]
      exact hsize.neg
    · rename_i hpos
      have hcast : (n : ℚ) = (n.natAbs : ℕ) := by
        rw [Nat.cast_natAbs, abs_of_nonneg (not_lt.1 hpos)]
      rw [hcast]
      exact hsize

/-- An odd significand rounds like every number between its neighbours, if it has two bits to spare. -/
theorem rounds_nearest_of_odd {n : Nat} (hn : (n : ℤ) % 2 = 1) {t : ℚ} (hp : 1 ≤ p)
    (hlt : p + 2 ≤ bitLength n) (ht : |t - n| < 1) (k : Int) :
    Rounds p (t * 2 ^ (-k)) (nearest p (.ofOdd n k hn)) := by
  have hodd : n % 2 = 1 := by omega
  have hunit : 4 ∣ 2 ^ (bitLength n - p) := pow_dvd_pow 2 (by omega : 2 ≤ bitLength n - p)
  have heven : 2 ∣ 2 ^ (bitLength n - 1) := dvd_pow_self 2 (by omega)
  have hfirst : (2 ^ (bitLength n - 1) : ℚ) ≤ t := by
    have hle := (bitLength_bounds (by omega : n ≠ 0)).1
    have hlt : (2 ^ (bitLength n - 1) + 1 : ℚ) ≤ n := by exact_mod_cast (by omega : _ + 1 ≤ n)
    linarith [(abs_lt.1 ht).1]
  have herror : |(nearestQuotient n (2 ^ (bitLength n - p)) * (2 ^ (bitLength n - p) : ℕ) : ℚ) - t| ≤
      (2 ^ (bitLength n - p) : ℕ) / 2 := by
    have hnear := abs_nearestQuotient_mul_sub_le_of_odd hodd (by positivity) hunit
    have hsum := abs_sub_le
      (nearestQuotient n (2 ^ (bitLength n - p)) * (2 ^ (bitLength n - p) : ℕ) : ℚ) n t
    rw [abs_sub_comm (n : ℚ) t] at hsum
    linarith
  have hexcess : bitLength n - p ≠ 0 := by omega
  have hpos : ¬(n : ℤ) < 0 := by omega
  have hsize := rounds_significand hp (by omega) hfirst herror k
  simpa [nearest, hexcess, withSign, hpos] using hsize

/-- A numerator that is shifted far enough makes the quotient that long. -/
theorem two_pow_le_shiftLeft_div {n d : Nat} (hn : n ≠ 0) (hd : 0 < d) {length shift : Nat}
    (h : length + bitLength d ≤ bitLength n - 1 + shift) : 2 ^ length ≤ n <<< shift / d := by
  refine (Nat.le_div_iff_mul_le hd).2 ?_
  calc 2 ^ length * d ≤ 2 ^ length * 2 ^ bitLength d :=
        Nat.mul_le_mul_left _ (bitLength_le_iff.1 le_rfl).le
    _ = 2 ^ (length + bitLength d) := (pow_add 2 _ _).symm
    _ ≤ 2 ^ (bitLength n - 1 + shift) := Nat.pow_le_pow_right (by decide) h
    _ = 2 ^ (bitLength n - 1) * 2 ^ shift := pow_add 2 _ _
    _ ≤ n * 2 ^ shift := Nat.mul_le_mul_right _ (bitLength_bounds hn).1
    _ = n <<< shift := (Nat.shiftLeft_eq n shift).symm

/-- A quotient is rounded as if it were exact. -/
theorem rounds_nearest_ofQuotient {n d : Nat} (hp : 1 ≤ p) (hn : n ≠ 0) (hd : 0 < d) :
    Rounds p (n / d) (nearest p (ofQuotient p false n d)) := by
  simp only [ofQuotient]
  generalize hshift : p + 2 + bitLength d - bitLength n = shift
  have hreach : 2 ^ (p + 1) ≤ n <<< shift / d := by
    have hpos := one_le_bitLength hn
    exact two_pow_le_shiftLeft_div hn hd (by omega)
  have hunit : (0 : ℚ) < d := by exact_mod_cast hd
  have hmean : (2 * (n <<< shift : ℕ) / d : ℚ) * 2 ^ (-(shift + 1 : ℤ)) = n / d := by
    rw [Nat.shiftLeft_eq, zpow_neg, zpow_add_one₀ (by norm_num), zpow_natCast]
    push_cast
    field_simp
  have hsplit : (n <<< shift : ℕ) = (d * (n <<< shift / d : ℕ) + (n <<< shift % d : ℕ) : ℚ) := by
    exact_mod_cast (Nat.div_add_mod (n <<< shift) d).symm
  have hmod := Nat.mod_lt (n <<< shift) hd
  generalize n <<< shift / d = q at *
  generalize n <<< shift % d = r at *
  have hquotient : (2 * (d * q + r : ℚ) / d) = 2 * q + 2 * (r / d) := by field_simp
  rw [← hmean, hsplit, hquotient]
  split
  · rename_i hr
    have hround := rounds_nearest hp (.ofIntWithPrec (2 * q : ℕ) (shift + 1))
    rw [Dyadic.toRat_ofIntWithPrec_eq_mul_two_pow] at hround
    simpa [hr, withSign] using hround
  · rename_i hr
    have hodd : ((2 * q + 1 : ℕ) : ℤ) % 2 = 1 := by omega
    have hbits : p + 2 ≤ bitLength (2 * q + 1) := by
      by_contra hlt
      have := bitLength_le_iff.1 (Nat.lt_succ_iff.1 (not_le.1 hlt))
      omega
    have hnear : |(2 * q + 2 * (r / d) : ℚ) - (2 * q + 1 : ℕ)| < 1 := by
      have hlow : (0 : ℚ) < r / d := div_pos (by exact_mod_cast Nat.pos_of_ne_zero hr) hunit
      have hhigh : (r / d : ℚ) < 1 := (div_lt_one hunit).2 (by exact_mod_cast hmod)
      push_cast
      rw [abs_lt]
      constructor <;> linarith
    have hround := rounds_nearest_of_odd hodd hp hbits hnear (shift + 1)
    rwa [Dyadic.ofOdd_eq_ofIntWithPrec] at hround

end Binary

end Reckoner
