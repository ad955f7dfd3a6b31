import Reckoner.Proofs.DecimalExpansion
import Reckoner.Proofs.NumeralText

/-! What is displayed of a number, read as a numeral, is the number rounded to the digits shown: correctly,
and only once. -/

namespace Reckoner.Number
open Decimal Text

variable {p : Nat} {x : Dyadic}

/-- The decimal exponent of a number is no larger than its magnitude allows. -/
theorem natAbs_exponent_le {m : Mantissa} (h : m.Truncates |x.toRat|) (hx : x ≠ 0)
    (hrange : (Binary.magnitude x).natAbs ≤ directMagnitude) :
    m.exponent.natAbs ≤ directMagnitude + 1 := by
  obtain ⟨hlow, hhigh⟩ := Binary.magnitude_bounds hx
  have hbelow := lt_of_ten_zpow_lt (h.bounds.1.trans_lt hhigh)
  have habove := lt_of_two_zpow_lt (hlow.trans_lt h.bounds.2)
  omega

/-- The display is rounded correctly. Read as a numeral it is the multiple of the last decimal place shown
that is nearest to the number itself; of two equally near ones it is the one farther from zero. -/
theorem display_is_nearest (hx : x ≠ 0) (hfits : Binary.Fits p x)
    (hrange : (Binary.magnitude x).natAbs ≤ directMagnitude) {digits : Int} (hpos : 1 ≤ digits)
    (hlt : digits < workingDigits p) (threshold : Int) :
    ∃ (text : String) (l : Literal) (k : Int),
      display p digits threshold (.finite x) = .ok text ∧ Literal.read? text.toList = some l ∧
      10 ^ (k - 1) ≤ |x.toRat| ∧ |x.toRat| < 10 ^ k ∧
      NearestMultiple (10 ^ (k - digits)) x.toRat l.toRat := by
  obtain ⟨htruncates, hlength⟩ := expand_truncates hx hfits hrange
  obtain ⟨r, hround, hdigits, hvalue, hnearest, hexponent⟩ :=
    htruncates.exists_roundTo hpos (by omega)
  have hmoderate : r.exponent.natAbs ≤ maxTextLength := by
    have hle := natAbs_exponent_le htruncates hx hrange
    have hlength : directMagnitude + 2 ≤ maxTextLength := by decide
    omega
  obtain ⟨text, l, hlayout, hread, hrat⟩ :=
    exists_layout_eq (Binary.isNegative x) hdigits hvalue (limit?_eq_none hmoderate _ threshold)
  have hzero : Binary.isZero x = false := by
    cases x with
    | zero => exact absurd rfl hx
    | ofOdd n k hn => rfl
  refine ⟨text, l, (expand p x).exponent, ?_, hread, htruncates.bounds.1, htruncates.bounds.2, ?_⟩
  · rw [display, if_neg (ne_true_of_eq_false hzero), hround]
    exact hlayout
  · rw [hrat]
    split
    · rename_i hnegative
      have := hnearest.neg
      rwa [abs_of_neg (Binary.isNegative_iff.1 hnegative), neg_neg] at this
    · rename_i hnonneg
      rwa [abs_of_nonneg (not_lt.1 fun h => hnonneg (Binary.isNegative_iff.2 h))] at hnearest

/-- Halfway between nine and ten the first digit carries, and the sign does not matter. -/
theorem negative_tie_goes_away_from_zero :
    let x : Dyadic := .ofOdd (-19) 1 rfl
    x ≠ 0 ∧ Binary.Fits 53 x ∧ (Binary.magnitude x).natAbs ≤ directMagnitude ∧ 1 < workingDigits 53 ∧
      display 53 1 3 (.finite x) = .ok "-10" ∧
      ∃ (text : String) (l : Literal) (k : Int),
        display 53 1 3 (.finite x) = .ok text ∧ Literal.read? text.toList = some l ∧
        10 ^ (k - 1) ≤ |x.toRat| ∧ |x.toRat| < 10 ^ k ∧ NearestMultiple (10 ^ (k - 1)) x.toRat l.toRat := by
  intro x
  have hx : x ≠ 0 := by decide
  have hfits : Binary.Fits 53 x := (by decide : Binary.width x ≤ 53)
  have hrange : (Binary.magnitude x).natAbs ≤ directMagnitude := by decide
  have hdigits : 1 < workingDigits 53 := by decide
  have hdisplay : display 53 1 3 (.finite x) = .ok "-10" := by decide +kernel
  exact ⟨hx, hfits, hrange, hdigits, hdisplay,
    display_is_nearest hx hfits hrange (by decide) (by exact_mod_cast hdigits) 3⟩

end Reckoner.Number
