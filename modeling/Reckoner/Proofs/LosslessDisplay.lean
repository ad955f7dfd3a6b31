import Reckoner.Proofs.CorrectDisplay
import Reckoner.Proofs.ReadBack

/-! A display of as many digits as the precision is worth, guard digits included, loses nothing. What is cut
off or rounded away is less than half of what separates the number from its neighbours of the precision, so
that the literal is rounded back to the number itself. That takes the digits to be counted right. For a precision so
large that the count is too small by more than the guard digits, there are fewer numbers to show than numbers of
the precision. -/

namespace Reckoner

namespace Binary
variable {p : Nat} {x v : Dyadic} {z : ℚ}

/-- What lies within half a unit of the last bit of a number of the precision, in proportion, is rounded to
that number. -/
theorem Rounds.eq_of_near (h : Rounds p z v) (hp : 1 ≤ p) (hx : Fits p x)
    (hnear : |x.toRat - z| < |x.toRat| * 2 ^ (-(p + 1 : ℕ) : ℤ)) : v = x := by
  by_contra hne
  have hhalf : (2 : ℚ) ^ (-p : ℤ) = 2 ^ (-(p + 1 : ℕ) : ℤ) * 2 := by
    rw [← zpow_add_one₀ (by norm_num)]
    congr 1
    omega
  have happart := abs_mul_le_abs_sub hp hx h.fits hne
  have hnearest := h.nearest x hx
  have hdistance := abs_sub_le v.toRat z x.toRat
  rw [abs_sub_comm z] at hdistance
  rw [hhalf] at happart
  linarith

end Binary

namespace Number
open Decimal Text
variable {p : Nat} {x : Dyadic} {digits : ℤ}

/-- The number whose display is read back: a literal, or a minus and a literal that is negated. -/
def readShown (p : Nat) (text : String) : Except Error Number :=
  match text.toList with
  | '-' :: literal => neg p <$> parse p (String.ofList literal)
  | _ => parse p text

private theorem parse_numeral {n : Numeral} (hn : n.negative = false) {l : Literal}
    (hl : Literal.read? n.text = some l) : parse p (String.ofList n.text) = .ok (l.value p) := by
  rw [parse, String.toList_ofList, ofText?_of_isNumeral p (Numeral.isNumeral_text hn), hl]
  rfl

private theorem readShown_signText {n : Numeral} (hn : n.negative = false) {l : Literal}
    (hl : Literal.read? n.text = some l) (negative : Bool) :
    readShown p (String.ofList (signText negative ++ n.text)) =
      .ok (if negative then neg p (l.value p) else l.value p) := by
  have hparse := parse_numeral (p := p) hn hl
  cases negative with
  | true =>
    rw [readShown, String.toList_ofList]
    exact congrArg (neg p <$> ·) hparse
  | false =>
    unfold readShown
    split
    · rename_i rest htext
      have htext : n.text = '-' :: rest := String.toList_ofList.symm.trans htext
      exact absurd rfl (Numeral.head?_text hn (congrArg List.head? htext)).2
    · exact hparse

/-- The sign of a number and its absolute value make up the number. -/
theorem signed_abs (hfits : Binary.Fits p x) :
    (if Binary.isNegative x then neg p (.finite (Binary.abs x)) else .finite (Binary.abs x)) =
      Number.finite x := by
  rw [Binary.abs]
  split
  · rw [neg, Binary.neg_neg, Binary.nearest_of_fits hfits]
  · rfl

private theorem workingDigits_le (p : Nat) : workingDigits p ≤ p + 4 := by
  have hcount := (digitsOfPrecision_bounds p).2
  rw [workingDigits, guardDigits]
  omega

/-- A unit of the last working digit is less than half a unit of the last bit, in proportion. -/
theorem ten_zpow_lt_mul {k : ℤ} {z : ℚ} (hguard : 2 ^ (p + 1) < 10 ^ (digitsOfPrecision p + 2))
    (hz : 10 ^ (k - 1) ≤ z) : (10 : ℚ) ^ (k - workingDigits p) < z * 2 ^ (-(p + 1 : ℕ) : ℤ) := by
  have hguard : (2 : ℚ) ^ (p + 1) < 10 ^ (digitsOfPrecision p + 2) := by exact_mod_cast hguard
  have hplace : k - workingDigits p = k - 1 + -(digitsOfPrecision p + 2 : ℕ) := by
    rw [workingDigits, guardDigits]
    omega
  calc (10 : ℚ) ^ (k - workingDigits p) = 10 ^ (k - 1) * (10 ^ (digitsOfPrecision p + 2))⁻¹ := by
        rw [hplace, zpow_add₀ (by norm_num), zpow_neg, zpow_natCast]
    _ < 10 ^ (k - 1) * (2 ^ (p + 1))⁻¹ :=
        mul_lt_mul_of_pos_left (inv_strictAnti₀ (by positivity) hguard) (by positivity)
    _ ≤ z * (2 ^ (p + 1))⁻¹ := mul_le_mul_of_nonneg_right hz (by positivity)
    _ = z * 2 ^ (-(p + 1 : ℕ) : ℤ) := by rw [zpow_neg, zpow_natCast]

/-- What is displayed of a number is read back as a multiple of the last place shown, rounded once. That multiple is
off by less than a unit of the last place of any count of digits below those shown and those of the expansion. -/
theorem exists_display_read (hp : 1 ≤ p) (hx : x ≠ 0) (hfits : Binary.Fits p x)
    (hrange : (Binary.magnitude x).natAbs ≤ directMagnitude) {least : ℤ} (hpos : 1 ≤ least)
    (hdigits : least ≤ digits) (hworking : least ≤ workingDigits p) (threshold : Int) :
    ∃ (r : ℚ) (v : Dyadic) (text : String), display p digits threshold (.finite x) = .ok text ∧
      readShown p text = .ok (if Binary.isNegative x then neg p (.finite v) else .finite v) ∧
      Binary.Rounds p r v ∧ |(|x.toRat| - r)| < 10 ^ ((expand p x).exponent - least) ∧
      ∃ n : ℤ, r = n * 10 ^ ((expand p x).exponent - digits) := by
  obtain ⟨htruncates, hlength⟩ := expand_truncates hx hfits hrange
  obtain ⟨hexponent, hlong⟩ := expand_bounds hx hfits hrange
  have hle := workingDigits_le p
  obtain ⟨r, hround, hr, hvalue, hnear, hmultiple, hgrows, hcarry⟩ :=
    htruncates.exists_roundTo_near hpos hdigits (hworking.trans (by exact_mod_cast hlength))
  obtain ⟨n, l, v, hn, hlayout, hl, hread, hrounds⟩ :=
    exists_value_layout hp hr hvalue (by omega) (by omega) threshold
  refine ⟨r.toRat, v, String.ofList (signText (Binary.isNegative x) ++ n.text), ?_, ?_, hrounds, hnear, hmultiple⟩
  · rw [display, if_neg (ne_true_of_eq_false (Binary.isZero_eq_false hx)), hround]
    exact hlayout _
  · rw [readShown_signText hn hl, hread]

/-- A display of the working digits or more, with any threshold for the exponent, is read back as the number
that is displayed, if that is in the range where the expansion is known to have these digits, and if they are counted
right. -/
theorem display_is_lossless_of_lt (hp : 1 ≤ p) (hguard : 2 ^ (p + 1) < 10 ^ (digitsOfPrecision p + 2)) (hx : x ≠ 0)
    (hfits : Binary.Fits p x) (hrange : (Binary.magnitude x).natAbs ≤ directMagnitude)
    (hdigits : workingDigits p ≤ digits) (threshold : Int) :
    ∃ text, display p digits threshold (.finite x) = .ok text ∧ readShown p text = .ok (.finite x) := by
  have hworking : (1 : ℤ) ≤ workingDigits p := by
    rw [workingDigits, guardDigits]
    omega
  obtain ⟨r, v, text, htext, hread, hrounds, hnear, -⟩ :=
    exists_display_read hp hx hfits hrange hworking hdigits le_rfl threshold
  have hv : v = Binary.abs x := by
    refine hrounds.eq_of_near hp (Binary.fits_abs hfits) ?_
    rw [Binary.toRat_abs, abs_abs]
    exact hnear.trans (ten_zpow_lt_mul hguard (truncates_expand hx hfits).bounds.1)
  exact ⟨text, htext, by rw [hread, hv, signed_abs hfits]⟩

/-- Up to `2 ^ 51` bits, a display of the working digits or more is lossless in the range where the expansion is known
to have these digits. -/
theorem display_is_lossless (hp : 1 ≤ p) (hle : p ≤ 2 ^ 51) (hx : x ≠ 0) (hfits : Binary.Fits p x)
    (hrange : (Binary.magnitude x).natAbs ≤ directMagnitude) (hdigits : workingDigits p ≤ digits) (threshold : Int) :
    ∃ text, display p digits threshold (.finite x) = .ok text ∧ readShown p text = .ok (.finite x) :=
  display_is_lossless_of_lt hp (two_pow_lt_ten_pow hle) hx hfits hrange hdigits threshold

/-- A negative power of two, above which the numbers lie twice as far apart as below. -/
theorem negative_power_of_two_is_lossless :
    let x : Dyadic := .ofOdd (-1) 10 rfl
    x ≠ 0 ∧ Binary.Fits 53 x ∧ (Binary.magnitude x).natAbs ≤ directMagnitude ∧ workingDigits 53 ≤ 18 ∧
      display 53 18 3 (.finite x) = .ok "-0.0009765625" ∧
      ∃ text, display 53 18 3 (.finite x) = .ok text ∧ readShown 53 text = .ok (.finite x) := by
  intro x
  have hx : x ≠ 0 := by decide
  have hfits : Binary.Fits 53 x := (by decide : Binary.width x ≤ 53)
  have hrange : (Binary.magnitude x).natAbs ≤ directMagnitude := by decide
  have hdigits : workingDigits 53 ≤ 18 := by decide
  have hdisplay : display 53 18 3 (.finite x) = .ok "-0.0009765625" := by decide +kernel
  exact ⟨hx, hfits, hrange, hdigits, hdisplay,
    display_is_lossless (by decide) (by decide) hx hfits hrange (by exact_mod_cast hdigits) 3⟩

/-- Numbers from one up to two that lie eight units of the last bit apart. -/
def spaced (p i : Nat) : Dyadic :=
  .ofIntWithPrec (2 ^ (p - 3) + i : ℕ) (p - 3 : ℕ)

theorem toRat_spaced (p i : Nat) : (spaced p i).toRat = 1 + i / 2 ^ (p - 3) := by
  rw [spaced, Dyadic.toRat_ofIntWithPrec_eq_mul_two_pow, zpow_neg, zpow_natCast]
  push_cast
  field_simp

private theorem spaced_spec (hp : 3 ≤ p) {i : Nat} (hi : i < 2 ^ (p - 3)) :
    Binary.Fits p (spaced p i) ∧ 1 ≤ (spaced p i).toRat ∧ (spaced p i).toRat < 2 := by
  have hpow : (0 : ℚ) < 2 ^ (p - 3) := by positivity
  have hlt : (i : ℚ) / 2 ^ (p - 3) < 1 := (div_lt_one hpow).2 (by exact_mod_cast hi)
  have hnonneg : 0 ≤ (i : ℚ) / 2 ^ (p - 3) := by positivity
  have hle : 2 ^ (p - 3) + i ≤ 2 ^ p := by
    calc 2 ^ (p - 3) + i ≤ 2 ^ (p - 3) * 2 := by omega
      _ = 2 ^ (p - 3 + 1) := (Nat.pow_succ ..).symm
      _ ≤ 2 ^ p := Nat.pow_le_pow_right (by decide) (by omega)
  rw [toRat_spaced]
  exact ⟨Binary.fits_ofIntWithPrec (by omega) (by rwa [Int.natAbs_natCast]) _, by linarith, by linarith⟩

private theorem eq_of_spaced_near (hp : 3 ≤ p) {i j : Nat}
    (h : |(spaced p i).toRat - (spaced p j).toRat| ≤ 3 * 2 ^ (-p : ℤ) + 3 * 2 ^ (-p : ℤ)) : i = j := by
  have hpow : (2 : ℚ) ^ (-p : ℤ) * 8 * 2 ^ (p - 3) = 1 := by
    rw [show (8 : ℚ) = 2 ^ 3 by norm_num, zpow_neg, zpow_natCast, mul_assoc, ← pow_add, Nat.add_sub_cancel' hp]
    exact inv_mul_cancel₀ (by positivity)
  have hunit : (0 : ℚ) < 2 ^ (p - 3) := by positivity
  rw [toRat_spaced, toRat_spaced, add_sub_add_left_eq_sub, ← sub_div, abs_div, abs_of_pos hunit, div_le_iff₀ hunit] at h
  have hlt : |(i - j : ℚ)| < 1 := by linarith
  have hlt : |(i - j : ℤ)| < 1 := by exact_mod_cast hlt
  have hbounds := abs_lt.1 hlt
  omega

/-- A number from one up to two has its first digit in front of the point. -/
private theorem leading_spec (hfits : Binary.Fits p x) (hone : 1 ≤ x.toRat) (htwo : x.toRat < 2) :
    x ≠ 0 ∧ Binary.isNegative x = false ∧ (Binary.magnitude x).natAbs ≤ directMagnitude ∧
      (expand p x).exponent = 1 := by
  have habs : |x.toRat| = x.toRat := abs_of_nonneg (zero_le_one.trans hone)
  have hx : x ≠ 0 := mt Dyadic.toRat_eq_zero_iff.2 (zero_lt_one.trans_le hone).ne'
  refine ⟨hx, ?_, ?_, ?_⟩
  · rw [← Bool.not_eq_true, Binary.isNegative_iff]
    exact not_lt.2 (zero_le_one.trans hone)
  · refine Binary.natAbs_magnitude_le hx (by decide : (1 : ℤ) ≤ 1010) ?_
    rw [habs]
    norm_num
    constructor <;> linarith
  · refine exponent_unique (truncates_expand hx hfits).bounds ?_
    rw [habs]
    norm_num
    exact ⟨hone, htwo.trans (by norm_num)⟩

/-- A number from one up to two that is read back is shown as a multiple of the last place, which it is nearly. -/
theorem exists_near_of_lossless (hp : 1 ≤ p) (hpos : 1 ≤ digits) {threshold : Int} (hfits : Binary.Fits p x)
    (hone : 1 ≤ x.toRat) (htwo : x.toRat < 2)
    (h : ∃ text, display p digits threshold (.finite x) = .ok text ∧ readShown p text = .ok (.finite x)) :
    ∃ n : ℤ, 0 ≤ n ∧ n < 10 ^ digits.toNat ∧ |x.toRat - n * 10 ^ (1 - digits)| ≤ 3 * 2 ^ (-p : ℤ) := by
  have habs : |x.toRat| = x.toRat := abs_of_nonneg (zero_le_one.trans hone)
  obtain ⟨hx, hsign, hrange, hexponent⟩ := leading_spec hfits hone htwo
  have hworking : (1 : ℤ) ≤ workingDigits p := by
    rw [workingDigits, guardDigits]
    omega
  obtain ⟨r, v, text, htext, hread, hrounds, hnear, n, hn⟩ :=
    exists_display_read hp hx hfits hrange le_rfl hpos hworking threshold
  obtain ⟨text', htext', hread'⟩ := h
  obtain rfl : text = text' := Except.ok.inj (htext.symm.trans htext')
  have hv : v = x := by
    rw [hsign] at hread
    exact Number.finite.inj (Except.ok.inj (hread.symm.trans hread'))
  rw [hexponent] at hnear hn
  rw [habs, sub_self, zpow_zero, abs_lt] at hnear
  have hthree : |r| < 3 := abs_lt.2 ⟨by linarith, by linarith⟩
  have hunit : (0 : ℚ) < 10 ^ (1 - digits) := by positivity
  have hr : 0 < (n : ℚ) * 10 ^ (1 - digits) := hn ▸ by linarith
  have hten : (10 : ℚ) ^ digits.toNat * 10 ^ (1 - digits) = 10 := by
    rw [← zpow_natCast, ← zpow_add₀ (by norm_num), Int.toNat_of_nonneg (by omega)]
    norm_num
  have hfew : (n : ℚ) * 10 ^ (1 - digits) < 10 ^ digits.toNat * 10 ^ (1 - digits) := by
    rw [← hn, hten]
    linarith [(abs_lt.1 hthree).2]
  refine ⟨n, ?_, ?_, ?_⟩
  · exact_mod_cast (pos_of_mul_pos_left hr hunit.le).le
  · exact_mod_cast lt_of_mul_lt_mul_right hfew hunit.le
  · rw [← hn, ← hv]
    exact hrounds.error.trans (mul_le_mul_of_nonneg_right hthree.le (by positivity))

/-- If all numbers from one up to two are read back, then there are no fewer numbers to show than every fourth of
them. -/
theorem two_pow_le_of_lossless (hp : 3 ≤ p) (hpos : 1 ≤ digits) (threshold : Int)
    (h : ∀ x, Binary.Fits p x → 1 ≤ x.toRat → x.toRat < 2 →
      ∃ text, display p digits threshold (.finite x) = .ok text ∧ readShown p text = .ok (.finite x)) :
    2 ^ (p - 3) ≤ 10 ^ digits.toNat := by
  have hshown (i : Nat) (hi : i < 2 ^ (p - 3)) : ∃ n : ℤ, 0 ≤ n ∧ n < 10 ^ digits.toNat ∧
      |(spaced p i).toRat - n * 10 ^ (1 - digits)| ≤ 3 * 2 ^ (-p : ℤ) := by
    obtain ⟨hfits, hone, htwo⟩ := spaced_spec hp hi
    exact exists_near_of_lossless (by omega) hpos hfits hone htwo (h _ hfits hone htwo)
  choose! shown hnonneg hlt hnear using hshown
  have hcard := Finset.card_le_card_of_injOn (s := .range (2 ^ (p - 3))) (t := .range (10 ^ digits.toNat))
    (fun i => (shown i).toNat) (fun i hi => ?_) fun i hi j hj hij => ?_
  · rwa [Finset.card_range, Finset.card_range] at hcard
  · have hi := Finset.mem_range.1 hi
    have hshown : ((shown i).toNat : ℤ) < 10 ^ digits.toNat := by
      rw [Int.toNat_of_nonneg (hnonneg i hi)]
      exact hlt i hi
    exact Finset.mem_coe.2 (Finset.mem_range.2 (by exact_mod_cast hshown))
  · have hi := Finset.mem_range.1 hi
    have hj := Finset.mem_range.1 hj
    have hsame : shown i = shown j := by
      rw [← Int.toNat_of_nonneg (hnonneg i hi), ← Int.toNat_of_nonneg (hnonneg j hj)]
      exact congrArg Nat.cast hij
    have hclose := abs_sub_le (spaced p i).toRat (shown j * 10 ^ (1 - digits)) (spaced p j).toRat
    have hj := hnear j hj
    rw [abs_sub_comm] at hj
    have hi := hsame ▸ hnear i hi
    exact eq_of_spaced_near hp (hclose.trans (add_le_add hi hj))

/-- Where the digits shown are too few for the numbers from one up to two, one of these is lost. -/
theorem exists_lost (hp : 3 ≤ p) (hdigits : workingDigits p < Binary.log10Power (p - 3)) (threshold : Int) :
    ∃ x, Binary.Fits p x ∧ 1 ≤ x.toRat ∧ x.toRat < 2 ∧
      ∀ text, display p (workingDigits p) threshold (.finite x) = .ok text → readShown p text ≠ .ok (.finite x) := by
  by_contra hnone
  push Not at hnone
  have hworking : (1 : ℤ) ≤ workingDigits p := by
    rw [workingDigits, guardDigits]
    omega
  have hle := two_pow_le_of_lossless hp hworking threshold hnone
  have hlog := (Binary.log10Power_spec (p - 3)).1
  rw [Int.toNat_natCast] at hle
  exact absurd (Nat.pow_lt_pow_right (by decide : 1 < 10) hdigits) (Nat.not_lt.2 (hlog.trans hle))

/-- A number of thirty quintillion digits is not shown at all where the settings do without an exponent. And with a
quintillion bits, the working digits are too few by more than the guard digits, so that a number is lost. -/
theorem some_numbers_are_lost :
    let x : Dyadic := .ofOdd 4859006833398497 (-99657842846620870384) rfl
    x ≠ 0 ∧ Binary.Fits 53 x ∧ workingDigits 53 ≤ 18 ∧ parse 53 "1e30000000000000000000" = .ok (.finite x) ∧
      display 53 18 100000000000000000000000 (.finite x) = .error .tooManyZeros ∧
      ∃ y, Binary.Fits (10 ^ 18) y ∧ 1 ≤ y.toRat ∧ y.toRat < 2 ∧
        ∀ text, display (10 ^ 18) (workingDigits (10 ^ 18)) 3 (.finite y) = .ok text →
          readShown (10 ^ 18) text ≠ .ok (.finite y) := by
  intro x
  have hdigits : workingDigits (10 ^ 18) < Binary.log10Power (10 ^ 18 - 3) := by decide +kernel
  exact ⟨by decide, (by decide : Binary.width x ≤ 53), by decide, by decide +kernel, by decide +kernel,
    exists_lost (by decide) hdigits 3⟩

end Number

end Reckoner
