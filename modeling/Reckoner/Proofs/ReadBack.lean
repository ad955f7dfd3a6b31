import Reckoner.Number.Plain
import Reckoner.Proofs.CanonicalText
import Reckoner.Proofs.DigitCount
import Reckoner.Proofs.LiteralValue

/-! What is displayed, read as a literal, is displayed again in the same way. The literal is rounded to the
precision and may come to lie below a power of ten that it was, but the error of that is less than half a
unit of the last digit shown, so that the display rounds it back. -/

namespace Reckoner

namespace NearestMultiple
variable {unit x r s : ℚ}

/-- A multiple that is less than half a unit away is the nearest. -/
theorem eq_of_near (h : NearestMultiple unit x r) (hs : ∃ n : ℤ, s = n * unit) (hnear : |x - s| < unit / 2) :
    r = s := by
  obtain ⟨n, rfl⟩ := hs
  obtain ⟨m, rfl⟩ := h.multiple
  have hunit : 0 < unit := by linarith [abs_nonneg (x - n * unit)]
  have hdistance : |((m - n : ℤ) : ℚ)| * unit < 1 * unit := by
    calc |((m - n : ℤ) : ℚ)| * unit = |m * unit - n * unit| := by
          rw [← sub_mul, abs_mul, abs_of_pos hunit, Int.cast_sub]
      _ ≤ |m * unit - x| + |x - n * unit| := abs_sub_le ..
      _ ≤ |x - n * unit| + |x - n * unit| := by
          rw [abs_sub_comm _ x]
          exact add_le_add_left (h.nearest n) _
      _ < 1 * unit := by linarith
  have hzero : |m - n| < 1 := by exact_mod_cast lt_of_mul_lt_mul_right hdistance hunit.le
  rw [sub_eq_zero.1 (Int.abs_lt_one_iff.1 hzero)]

/-- A multiple above a number is not below the nearest. -/
theorem le_of_le (h : NearestMultiple unit x r) {n : ℤ} (hx : x ≤ n * unit) : r ≤ n * unit := by
  by_contra hlt
  have hle := h.nearest n
  rw [abs_of_nonpos (by linarith), abs_of_nonpos (by linarith)] at hle
  linarith

end NearestMultiple

/-- A power of ten is a multiple of every lower one. -/
theorem ten_zpow_eq_mul {a b : ℤ} (h : b ≤ a) : (10 : ℚ) ^ a = (10 ^ (a - b).toNat : ℤ) * 10 ^ b := by
  push_cast
  rw [← zpow_natCast, ← zpow_add₀ (by norm_num)]
  congr 1
  omega

private theorem add_unit_le {unit : ℚ} (hu : 0 < unit) {m n : ℤ} (h : m * unit < n * unit) :
    m * unit + unit ≤ n * unit := by
  have hlt : m + 1 ≤ n := by exact_mod_cast lt_of_mul_lt_mul_right h hu.le
  calc m * unit + unit = (m + 1 : ℤ) * unit := by push_cast; ring
    _ ≤ n * unit := mul_le_mul_of_nonneg_right (by exact_mod_cast hlt) hu.le

section Reread
variable {digits e k : ℤ} {ε v r s : ℚ}

/-- A number that is read below the power of ten that was written lies one place further down, and there the
unit is smaller, but the power is a multiple of it. -/
theorem eq_of_reread_below (hpos : 1 ≤ digits) (hε : ε < 10 ^ (-digits) / 2) (hr : r = 10 ^ (e - 1))
    (herror : |v - r| ≤ r * ε) (hv : 10 ^ (k - 1) ≤ v ∧ v < 10 ^ k) (hlt : k < e)
    (hs : NearestMultiple (10 ^ (k - digits)) v s) : s = r := by
  have hrpos : 0 < r := hr ▸ by positivity
  have herror : |v - r| < r * (10 ^ (-digits) / 2) := herror.trans_lt (mul_lt_mul_of_pos_left hε hrpos)
  have hsmall : (10 : ℚ) ^ (-digits) ≤ 1 := zpow_le_one_of_nonpos₀ (by norm_num) (by omega)
  have hk : k = e - 1 := by
    have hten : r = 10 ^ (e - 2) * 10 := by
      rw [hr, ← zpow_add_one₀ (by norm_num)]
      ring_nf
    have hbelow : (10 : ℚ) ^ (e - 2) < 10 ^ k := by
      have hhalf : r * (10 ^ (-digits) / 2) ≤ r * (1 / 2) := by gcongr
      linarith [(abs_lt.1 herror).1, hv.2]
    have := (zpow_lt_zpow_iff_right₀ (by norm_num : (1 : ℚ) < 10)).1 hbelow
    omega
  have hunit : (10 : ℚ) ^ (k - digits) = r * 10 ^ (-digits) := by
    rw [hr, hk, ← zpow_add₀ (by norm_num)]
    rfl
  refine hs.eq_of_near ⟨_, hr.trans (ten_zpow_eq_mul (by omega))⟩ ?_
  rw [hunit]
  linarith

/-- A number that is written with some digits, and read with an error below half a unit of the last of them,
in proportion, is nearest to what was read. -/
theorem eq_of_reread (hpos : 1 ≤ digits) (hε : ε < 10 ^ (-digits) / 2)
    (hmultiple : ∃ n : ℤ, r = n * 10 ^ (e - digits)) (hr : 10 ^ (e - 1) ≤ r ∧ r < 10 ^ e)
    (herror : |v - r| ≤ r * ε) (hv : 10 ^ (k - 1) ≤ v ∧ v < 10 ^ k)
    (hs : NearestMultiple (10 ^ (k - digits)) v s) : s = r := by
  have hrpos : 0 < r := lt_of_lt_of_le (by positivity) hr.1
  have hunit : (0 : ℚ) < 10 ^ (e - digits) := by positivity
  have hhalf : |v - r| < 10 ^ (e - digits) / 2 := by
    calc |v - r| ≤ r * ε := herror
      _ ≤ r * (10 ^ (-digits) / 2) := mul_le_mul_of_nonneg_left hε.le hrpos.le
      _ < 10 ^ e * (10 ^ (-digits) / 2) := mul_lt_mul_of_pos_right hr.2 (by positivity)
      _ = 10 ^ (e - digits) / 2 := by rw [mul_div_assoc', ← zpow_add₀ (by norm_num)]; rfl
  have hfirst : (10 : ℚ) ^ (e - 1) = _ := ten_zpow_eq_mul (b := e - digits) (by omega)
  have hlast : (10 : ℚ) ^ e = _ := ten_zpow_eq_mul (b := e - digits) (by omega)
  obtain ⟨n, hn⟩ := hmultiple
  rcases lt_trichotomy k e with hlt | rfl | hlt
  · -- Read below the least power of ten. Any other multiple would be a whole unit away.
    have hbelow : v < 10 ^ (e - 1) := hv.2.trans_le (zpow_le_zpow_right₀ (by norm_num) (by omega))
    have hpower : r = 10 ^ (e - 1) := by
      refine (eq_or_lt_of_le hr.1).resolve_right (fun hgt => ?_) |>.symm
      have hnext := add_unit_le hunit (hfirst ▸ hn ▸ hgt)
      rw [← hfirst, ← hn] at hnext
      linarith [(abs_lt.1 hhalf).1]
    exact eq_of_reread_below hpos hε hpower herror hv hlt hs
  · exact hs.eq_of_near ⟨n, hn⟩ hhalf
  · -- Read at the next power of ten, which is a whole unit away.
    have habove : (10 : ℚ) ^ e ≤ v := (zpow_le_zpow_right₀ (by norm_num) (by omega)).trans hv.1
    have hnext := add_unit_le hunit (hlast ▸ hn ▸ hr.2)
    rw [← hlast, ← hn] at hnext
    linarith [(abs_lt.1 hhalf).2]

end Reread

namespace Binary
variable {p : Nat} {x v : Dyadic} {z : ℚ}

theorem isZero_eq_false (hx : x ≠ 0) : isZero x = false := by
  cases x with
  | zero => exact absurd rfl hx
  | ofOdd n k hn => rfl

theorem isNegative_eq (hx : x.toRat < 0 ↔ v.toRat < 0) : isNegative x = isNegative v := by
  rw [Bool.eq_iff_iff, isNegative_iff, isNegative_iff, hx]

/-- Rounding does not move a number by more than one decimal exponent. -/
theorem Rounds.bounds (h : Rounds p z v) (hp : 1 ≤ p) {a : ℤ} (hz : 10 ^ (-a) ≤ |z| ∧ |z| ≤ 10 ^ a) :
    10 ^ (-(a + 1)) ≤ |v.toRat| ∧ |v.toRat| ≤ 10 ^ (a + 1) := by
  have hwithin := h.within hp
  have hlow := abs_sub_abs_le_abs_sub z v.toRat
  have hhigh := abs_sub_abs_le_abs_sub v.toRat z
  rw [abs_sub_comm] at hlow
  have hten : (10 : ℚ) ^ (-a) = 10 * 10 ^ (-(a + 1)) := by
    rw [mul_comm, ← zpow_add_one₀ (by norm_num)]
    ring_nf
  rw [zpow_add_one₀ (by norm_num) a]
  constructor <;> linarith [abs_nonneg z, abs_nonneg v.toRat]

/-- Numbers of a thousand digits before the point, or a thousand zeros behind it, are expanded directly. -/
theorem natAbs_magnitude_le (hx : x ≠ 0) {a : ℤ} (ha : a ≤ 1010)
    (h : 10 ^ (-a) ≤ |x.toRat| ∧ |x.toRat| ≤ 10 ^ a) :
    (magnitude x).natAbs ≤ Number.directMagnitude := by
  obtain ⟨hlow, hhigh⟩ := magnitude_bounds hx
  have hnext : (10 : ℚ) ^ a < 10 ^ (a + 1) := zpow_lt_zpow_right₀ (by norm_num) (by omega)
  have habove := Number.lt_of_two_zpow_lt (hlow.trans_lt (h.2.trans_lt hnext))
  have hbelow := Number.lt_of_ten_zpow_lt (h.1.trans_lt hhigh)
  rw [Number.directMagnitude]
  omega

end Binary

namespace Number
open Decimal Text
variable {p : Nat} {x : Dyadic} {digits : ℤ}

private theorem natAbs_exponent_significant_le (count : Nat) (x : Dyadic) :
    (significant p count x).exponent.natAbs ≤ (Binary.magnitude x).natAbs + 3 := by
  have hle := Binary.natAbs_decimalExponent_le false (Binary.magnitude x - 1)
  unfold significant
  dsimp only
  split <;> dsimp only <;> omega

/-- Numbers that are expanded directly can be written in a tree. -/
theorem hasPlainText_of_natAbs_magnitude_le (h : (Binary.magnitude x).natAbs ≤ directMagnitude) :
    (Number.finite x).hasPlainText p = true := by
  have hexponent : (plainDigits p x).exponent.natAbs < exponentLimit :=
    calc (plainDigits p x).exponent.natAbs ≤ (Binary.magnitude x).natAbs + 3 :=
          Binary.magnitude_abs x ▸ natAbs_exponent_significant_le (digitsOfPrecision p) (Binary.abs x)
      _ < 10 ^ 4 := by simp only [directMagnitude] at h; omega
      _ ≤ 10 ^ maxIntegerDigits := Nat.pow_le_pow_right (by decide) (by decide)
      _ = exponentLimit := exponentLimit_eq.symm
  rw [hasPlainText, decide_eq_true hexponent, Bool.or_true]

/-- Digits that can be shown, of which the precision is worth more than are shown. -/
structure Readable (p : Nat) (digits : ℤ) : Prop where
  pos : 1 ≤ digits
  le : digits ≤ 1000
  precision : 10 ^ digits.toNat ≤ 2 ^ (p - 1)

namespace Readable

/-- The decimal logarithm of two is below `28 / 93`. -/
theorem digits_le (h : Readable p digits) : 93 * digits ≤ 28 * (p - 1) := by
  have hp : 1 ≤ p := by
    rcases p with - | p
    · have hten : 10 ^ 1 ≤ 10 ^ digits.toNat := Nat.pow_le_pow_right (by decide) (by have := h.pos; omega)
      exact absurd (hten.trans h.precision) (by decide)
    · exact Nat.le_add_left 1 p
  have hbits : 93 * digits.toNat ≤ 28 * (p - 1) := by
    refine (Nat.pow_le_pow_iff_right (by decide : 1 < 10)).1 ?_
    calc 10 ^ (93 * digits.toNat) = (10 ^ digits.toNat) ^ 93 := by rw [← pow_mul, mul_comm]
      _ ≤ (2 ^ (p - 1)) ^ 93 := Nat.pow_le_pow_left h.precision 93
      _ = (2 ^ 93) ^ (p - 1) := by rw [← pow_mul, ← pow_mul, mul_comm]
      _ ≤ (10 ^ 28) ^ (p - 1) := Nat.pow_le_pow_left (by norm_num) _
      _ = 10 ^ (28 * (p - 1)) := (pow_mul 10 28 _).symm
  omega

theorem one_le (h : Readable p digits) : 1 ≤ p := by
  have := h.digits_le
  have := h.pos
  omega

/-- The digits shown are among those of the expansion. -/
theorem lt_workingDigits (h : Readable p digits) : digits < workingDigits p := by
  have hbits := h.digits_le
  have hle := h.le
  have hcount := (digitsOfPrecision_bounds p).1
  rw [workingDigits, guardDigits]
  omega

/-- Half a unit of the last bit is less than half a unit of the last digit, in proportion. -/
theorem two_zpow_lt (h : Readable p digits) : (2 : ℚ) ^ (-p : ℤ) < 10 ^ (-digits) / 2 := by
  have hpos := h.pos
  have hne : 10 ^ digits.toNat ≠ 2 ^ (p - 1) := by
    intro heq
    have hfive : 5 ∣ 2 ^ (p - 1) := heq ▸ (by norm_num : 5 ∣ 10).trans (dvd_pow_self 10 (by omega))
    have hcoprime : Nat.Coprime 5 (2 ^ (p - 1)) := Nat.Coprime.pow_right _ (by decide)
    exact absurd (hcoprime.eq_one_of_dvd hfive) (by decide)
  have hlt : (10 : ℚ) ^ digits < 2 ^ (p - 1) := by
    rw [← Int.toNat_of_nonneg (by omega : 0 ≤ digits), zpow_natCast]
    exact_mod_cast lt_of_le_of_ne h.precision hne
  rw [zpow_neg, zpow_neg, zpow_natCast, ← Nat.sub_add_cancel h.one_le, pow_succ, mul_inv, ← div_eq_mul_inv]
  exact div_lt_div_of_pos_right (inv_strictAnti₀ (by positivity) hlt) (by norm_num)

end Readable

/-- A number is rounded to the precision before it is displayed. -/
theorem display_nearest (hp : 1 ≤ p) (x : Dyadic) (digits threshold : Int) :
    display p digits threshold (.finite (Binary.nearest p x)) = display p digits threshold (.finite x) := by
  have hround := Binary.rounds_nearest hp x
  by_cases hx : x = 0
  · subst hx
    rfl
  · have hne := hround.ne_zero hp (mt Dyadic.toRat_eq_zero_iff.1 hx)
    simp only [display, expand, Binary.isZero_eq_false hx, Binary.isZero_eq_false hne,
      Binary.nearest_of_fits hround.fits, Binary.isNegative_eq (hround.toRat_neg_iff hp)]

/-- A mantissa that a number is displayed by: the digits asked for, zeros at its end aside. -/
structure Displayed (digits : ℤ) (m : Mantissa) : Prop where
  truncates : m.Truncates m.toRat
  multiple : ∃ n : ℤ, m.toRat = n * 10 ^ (m.exponent - digits)
  length : m.digits.length ≤ digits + 1

/-- What is displayed of a number is the written form of a mantissa, which is the nearest multiple of the last
place shown. -/
theorem exists_display_eq (h : Readable p digits) (hx : x ≠ 0) (hfits : Binary.Fits p x)
    (hrange : (Binary.magnitude x).natAbs ≤ directMagnitude) :
    ∃ (m : Mantissa) (k : ℤ), Displayed digits m ∧
      (∀ threshold, display p digits threshold (.finite x) =
        layout (Binary.isNegative x) m.digits m.exponent threshold) ∧
      (10 ^ (k - 1) ≤ |x.toRat| ∧ |x.toRat| < 10 ^ k) ∧
      NearestMultiple (10 ^ (k - digits)) |x.toRat| m.toRat ∧
      (m.exponent = k ∨ m.exponent = k + 1) := by
  have hpos := h.pos
  have hworking := h.lt_workingDigits
  obtain ⟨hexpand, hlength⟩ := expand_truncates hx hfits hrange
  obtain ⟨m, hround, hdigits, -, hnearest, hplace, hexponent⟩ := hexpand.exists_roundTo hpos (by omega)
  have hlead := exists_head?_roundTo hexpand.digits hexpand.leading hpos hround
  have hm := m.truncates_toRat hdigits hlead
  refine ⟨m, (expand p x).exponent, ⟨hm, ?_, ?_⟩, fun threshold => ?_, hexpand.bounds, hnearest, hexponent⟩
  · rcases hexponent with hexponent | hexponent
    · rw [hexponent]
      exact hnearest.multiple
    · -- A carry out of the first digit leaves a power of ten.
      have hpower : (10 : ℚ) ^ (expand p x).exponent = _ :=
        ten_zpow_eq_mul (b := (expand p x).exponent - digits) (by omega)
      have hle := hpower ▸ hnearest.le_of_le (hpower ▸ hexpand.bounds.2.le)
      have hge := hm.bounds.1
      rw [hexponent, add_sub_cancel_right] at hge
      exact ⟨_, (le_antisymm hle hge).trans (ten_zpow_eq_mul (by omega))⟩
  · rw [Mantissa.lastPlace] at hplace
    omega
  · rw [display, if_neg (ne_true_of_eq_false (Binary.isZero_eq_false hx)), hround]
    rfl

namespace Displayed
variable {m : Mantissa} {threshold : Int}

theorem toRat_pos (h : Displayed digits m) : 0 < m.toRat :=
  lt_of_lt_of_le (by positivity) h.truncates.bounds.1

theorem natAbs_magnitude_le (h : Displayed digits m) (hp : 1 ≤ p) {z : ℚ} (hz : |z| = m.toRat)
    (hv : Binary.Rounds p z x) (hexponent : m.exponent.natAbs ≤ 1003) :
    x ≠ 0 ∧ (Binary.magnitude x).natAbs ≤ directMagnitude := by
  have hx : x ≠ 0 := hv.ne_zero hp (abs_pos.1 (hz ▸ h.toRat_pos))
  have hbounds : 10 ^ (-1004 : ℤ) ≤ |z| ∧ |z| ≤ 10 ^ (1004 : ℤ) := by
    rw [hz]
    exact ⟨(zpow_le_zpow_right₀ (by norm_num) (by omega)).trans h.truncates.bounds.1,
      h.truncates.bounds.2.le.trans (zpow_le_zpow_right₀ (by norm_num) (by omega))⟩
  exact ⟨hx, Binary.natAbs_magnitude_le hx (by decide) (hv.bounds hp hbounds)⟩

/-- What is read of a mantissa is displayed as that mantissa. -/
theorem display_eq (h : Displayed digits m) (hdigits : Readable p digits) {z : ℚ} (hz : |z| = m.toRat)
    (hv : Binary.Rounds p z x) (hexponent : m.exponent.natAbs ≤ 1003) :
    display p digits threshold (.finite x) =
      layout (Binary.isNegative x) m.digits m.exponent threshold := by
  obtain ⟨hx, hmagnitude⟩ := h.natAbs_magnitude_le hdigits.one_le hz hv hexponent
  obtain ⟨r, k, hr, hdisplay, hk, hnearest, -⟩ := exists_display_eq hdigits hx hv.fits hmagnitude
  have herror : |(|x.toRat| - m.toRat)| ≤ m.toRat * 2 ^ (-p : ℤ) := by
    rw [← hz]
    exact (abs_abs_sub_abs_le _ _).trans hv.error
  have heq := eq_of_reread hdigits.pos hdigits.two_zpow_lt h.multiple h.truncates.bounds herror hk hnearest
  rw [hdisplay, layout_eq_of_toRat_eq hr.truncates h.truncates heq]

/-- With a minus, what is read is displayed with a minus. -/
theorem display_signed (h : Displayed digits m) (hdigits : Readable p digits)
    (hv : Binary.Rounds p m.toRat x) (hexponent : m.exponent.natAbs ≤ 1003) (negative : Bool) :
    display p digits threshold (.finite (if negative then -x else x)) =
      layout negative m.digits m.exponent threshold := by
  have hpos := h.toRat_pos
  have hsign := hv.toRat_neg_iff hdigits.one_le
  cases negative with
  | false =>
    have hx : Binary.isNegative x = false := by
      rw [← Bool.not_eq_true, Binary.isNegative_iff, hsign]
      exact not_lt.2 hpos.le
    rw [if_neg Bool.false_ne_true, h.display_eq hdigits (abs_of_pos hpos) hv hexponent, hx]
  | true =>
    have hx : Binary.isNegative (-x) = true := by
      rw [Binary.isNegative_iff, hv.neg.toRat_neg_iff hdigits.one_le]
      exact neg_lt_zero.2 hpos
    rw [if_pos rfl, h.display_eq hdigits ((abs_neg _).trans (abs_of_pos hpos)) hv.neg hexponent, hx]

/-- The text of a mantissa is a numeral, whose value is the number of the mantissa, rounded once. -/
theorem exists_value (h : Displayed digits m) (hdigits : Readable p digits)
    (hexponent : m.exponent.natAbs ≤ 1003) (threshold : Int) :
    ∃ (n : Numeral) (l : Literal) (v : Dyadic), n.negative = false ∧
      (∀ negative, layout negative m.digits m.exponent threshold =
        .ok (String.ofList (signText negative ++ n.text))) ∧
      Literal.read? n.text = some l ∧ l.value p = .finite v ∧ Binary.Rounds p m.toRat v := by
  have hlength := h.length
  have hbits := hdigits.digits_le
  exact exists_value_layout hdigits.one_le h.truncates.digits
    (lt_of_lt_of_le (by positivity) h.truncates.pow_le_value.2) (by omega) (by omega) threshold

end Displayed

/-- What is displayed is a sign and the text of a numeral. The numeral is read as a number, and that number,
with the sign, is displayed in the same way. -/
theorem exists_reread (threshold : Int)
    (hrange : x ≠ 0 → Readable p digits ∧ 10 ^ (-1000 : ℤ) ≤ |x.toRat| ∧ |x.toRat| ≤ 10 ^ (1000 : ℤ)) :
    ∃ (n : Numeral) (l : Literal) (v : Dyadic), n.negative = false ∧
      Literal.read? n.text = some l ∧ l.value p = .finite v ∧ Binary.Fits p v ∧
      (Binary.magnitude v).natAbs ≤ directMagnitude ∧
      ∀ u, u = x ∨ u = (if Binary.isNegative x then -v else v) →
        display p digits threshold (.finite u) =
          .ok (String.ofList (signText (Binary.isNegative x) ++ n.text)) := by
  by_cases hx : x = 0
  · subst hx
    let n : Numeral := ⟨false, [0], [], none, List.cons_ne_nil _ _, allDigits_zeros 1, Numeral.short_none⟩
    refine ⟨n, _, 0, rfl, n.read?_text, rfl, Nat.zero_le p, Nat.zero_le _, ?_⟩
    rintro u (rfl | rfl) <;> rfl
  obtain ⟨h, hrange⟩ := hrange hx
  have hround := Binary.rounds_nearest h.one_le x
  have hy := hround.ne_zero h.one_le (mt Dyadic.toRat_eq_zero_iff.1 hx)
  have hbounds := hround.bounds h.one_le hrange
  obtain ⟨m, k, hm, hdisplay, hk, -, hexponent⟩ := exists_display_eq h hy hround.fits
    (Binary.natAbs_magnitude_le hy (by decide) hbounds)
  have hexponent : m.exponent.natAbs ≤ 1003 := by
    have := (zpow_lt_zpow_iff_right₀ (by norm_num : (1 : ℚ) < 10)).1 (hbounds.1.trans_lt hk.2)
    have := (zpow_le_zpow_iff_right₀ (by norm_num : (1 : ℚ) < 10)).1 (hk.1.trans hbounds.2)
    omega
  obtain ⟨n, l, v, hpositive, hlayout, hl, hv, hvalue⟩ := hm.exists_value h hexponent threshold
  have hmagnitude := (hm.natAbs_magnitude_le h.one_le (abs_of_pos hm.toRat_pos) hvalue hexponent).2
  refine ⟨n, l, v, hpositive, hl, hv, hvalue.fits, hmagnitude, ?_⟩
  rintro u (rfl | rfl)
  · rw [← display_nearest h.one_le, hdisplay, Binary.isNegative_eq (hround.toRat_neg_iff h.one_le), hlayout]
  · rw [hm.display_signed h hvalue hexponent, hlayout]

end Number

end Reckoner
