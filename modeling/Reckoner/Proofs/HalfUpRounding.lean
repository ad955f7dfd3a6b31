import Reckoner.Proofs.DecimalRounding

/-! Rounding of any list of digits, with zeros in front of the first significant one or without. What comes of it
writes the number itself, rounded half up. There is one digit more than asked for only where nines carry, and
then the exponent grows with it. -/

namespace Reckoner.Decimal

namespace Mantissa
variable {m r : Mantissa} {first cut : Nat}

/-- The digits in front of an index are nines, and the one that stands there rounds them up. -/
def CarriesAt (m : Mantissa) (cut : Nat) : Prop :=
  (∀ d, d ∈ m.digits.take cut → d = 9) ∧ ∃ d, m.digits[cut]? = some d ∧ 5 ≤ d

/-- A mantissa is rounded half up to the digits in front of an index. One without a digit at the index is left
as it is. The exponent grows, together with the number of digits, where nines carry. -/
structure RoundsHalfUp (m : Mantissa) (cut : Nat) (r : Mantissa) : Prop where
  digits : AllDigits r.digits
  toRat : r.toRat = ⌊m.toRat / 10 ^ (m.exponent - cut) + 1 / 2⌋ * 10 ^ (m.exponent - cut)
  unchanged : m.digits.length ≤ cut → r = m
  carries : m.CarriesAt cut → r.exponent = m.exponent + 1 ∧ r.digits.length = cut + 1
  stays : ¬ m.CarriesAt cut → r.exponent = m.exponent ∧ r.digits.length = min cut m.digits.length

private theorem exponent_cutAt (hr : cutAt m cut = .ok r) :
    (m.CarriesAt cut → r.exponent = m.exponent + 1) ∧ (¬ m.CarriesAt cut → r.exponent = m.exponent) := by
  unfold cutAt at hr
  split at hr
  · cases hr
  rename_i d hd
  have hup : m.CarriesAt cut ↔ (∀ e, e ∈ m.digits.take cut → e = 9) ∧ 5 ≤ d := by simp [CarriesAt, hd]
  rw [hup]
  dsimp only at hr
  split at hr
  · rename_i hfive
    cases hes : addOne? (m.digits.take cut) with
    | none => rw [hes] at hr; cases hr
    | some es =>
      simp only [hes, lt_length_addOne?_iff hes] at hr
      cases hr
      exact ⟨fun h => if_pos h.1, fun h => if_neg fun hnines => h ⟨hnines, hfive⟩⟩
  · rename_i hfive
    cases hr
    exact ⟨fun h => absurd h.2 hfive, fun _ => rfl⟩

/-- Where no digit stands at the index or behind it, there is nothing to be rounded. -/
theorem roundsHalfUp_self (h : AllDigits m.digits) (hle : m.digits.length ≤ cut) : m.RoundsHalfUp cut m := by
  have hplace : m.lastPlace = (cut - m.digits.length : ℕ) + (m.exponent - cut) := by
    rw [lastPlace]
    omega
  have hwhole : m.toRat / 10 ^ (m.exponent - cut) =
      (value m.digits * 10 ^ (cut - m.digits.length) : ℤ) := by
    rw [toRat, hplace, zpow_add₀ (by norm_num), zpow_natCast, ← mul_assoc,
      mul_div_cancel_right₀ _ (by positivity)]
    push_cast
    rfl
  refine ⟨h, ?_, fun _ => rfl, ?_, fun _ => ⟨rfl, (min_eq_right hle).symm⟩⟩
  · rw [← round_eq, hwhole, round_intCast, ← hwhole, div_mul_cancel₀ _ (by positivity)]
  · rintro ⟨-, d, hd, -⟩
    rw [List.getElem?_eq_none hle] at hd
    cases hd

private theorem exists_roundsHalfUp_cutAt (h : AllDigits m.digits) (hpos : 0 < cut) (hlt : cut < m.digits.length) :
    ∃ r, cutAt m cut = .ok r ∧ m.RoundsHalfUp cut r := by
  obtain ⟨r, hr, hdigits, hvalue, hplace, -⟩ := exists_cutAt_eq h hpos hlt
  obtain ⟨hgrows, hstays⟩ := exponent_cutAt hr
  have hexact : value m.digits = ⌊m.toRat / 10 ^ m.lastPlace⌋ := by
    rw [toRat, mul_div_cancel_right₀ _ (by positivity), Int.floor_intCast]
  refine ⟨r, hr, hdigits, ?_, fun hle => absurd hlt (not_lt.2 hle), fun hcarry => ?_, fun hcarry => ?_⟩
  · rw [toRat, hplace, hvalue, value_take_eq_floor h hexact hlt, floor_ten_mul_add_five_div, round_eq]
  · have hexponent := hgrows hcarry
    rw [lastPlace] at hplace
    exact ⟨hexponent, by omega⟩
  · have hexponent := hstays hcarry
    rw [lastPlace] at hplace
    exact ⟨hexponent, by omega⟩

private theorem exists_roundsHalfUp_roundTo (h : AllDigits m.digits) (hfirst : m.LeadsAt first) {count : Nat}
    (hcount : 1 ≤ count) : ∃ r, roundTo m count = .ok (some r) ∧ m.RoundsHalfUp (first + count) r := by
  have hround := roundTo_of_leadsAt hfirst (by omega : (1 : ℤ) ≤ count)
  rcases le_or_gt m.digits.length (first + count) with hle | hlt
  · rw [if_pos (by omega)] at hround
    exact ⟨m, hround, roundsHalfUp_self h hle⟩
  · obtain ⟨r, hr, hrounds⟩ := exists_roundsHalfUp_cutAt h (by omega) hlt
    rw [if_neg (by omega), show ((first : ℤ) + count).toNat = first + count by omega, hr] at hround
    exact ⟨r, hround, hrounds⟩

private theorem exists_leadsAt_or_zeros (m : Mantissa) :
    (∃ first, m.LeadsAt first) ∨ (∀ d, d ∈ m.digits → d = 0) ∧ ∀ count, roundTo m count = .ok none := by
  cases hfirst : m.digits.findIdx? (· ≠ 0) with
  | none =>
    refine .inr ⟨fun d hd => by simpa using List.findIdx?_eq_none_iff.1 hfirst d hd, fun count => ?_⟩
    simp only [roundTo, hfirst]
  | some first => exact .inl ⟨first, findIdx?_eq_some_iff.1 hfirst⟩

end Mantissa

/-- Rounding is half up. Nothing comes of digits that are all zero, and of no others. Else the place of the last
digit to be kept is counted from the first digit other than zero, and what comes of the digits writes their
number, rounded half up to a multiple of that place. -/
theorem rounding_is_half_up {m : Mantissa} (h : AllDigits m.digits) {count : Nat} (hcount : 1 ≤ count) :
    (roundTo m count = .ok none ↔ ∀ d, d ∈ m.digits → d = 0) ∧
    ∀ first, m.LeadsAt first →
      ∃ r, roundTo m count = .ok (some r) ∧ m.RoundsHalfUp (first + count) r := by
  refine ⟨⟨fun hnone => ?_, fun hzeros => ?_⟩, fun first hfirst =>
    Mantissa.exists_roundsHalfUp_roundTo h hfirst hcount⟩
  · rcases m.exists_leadsAt_or_zeros with ⟨first, hfirst⟩ | ⟨hzeros, -⟩
    · obtain ⟨r, hr, -⟩ := Mantissa.exists_roundsHalfUp_roundTo h hfirst hcount
      rw [hnone] at hr
      cases hr
    · exact hzeros
  · rcases m.exists_leadsAt_or_zeros with ⟨first, -, d, hd, hne⟩ | ⟨-, hnone⟩
    · exact absurd (hzeros d (List.mem_of_getElem? hd)) hne
    · exact hnone count

/-- Nines carry beyond the first digit, and a half behind them is enough for that. -/
theorem nines_carry_into_the_exponent :
    let m : Mantissa := ⟨2, [9, 9, 9, 5, 0]⟩
    AllDigits m.digits ∧ 1 ≤ 3 ∧ m.LeadsAt 0 ∧ m.CarriesAt 3 ∧ roundTo m 3 = .ok (some ⟨3, [1, 0, 0, 0]⟩) ∧
      ∃ r, roundTo m (3 : Nat) = .ok (some r) ∧ m.RoundsHalfUp (0 + 3) r := by
  intro m
  have hdigits : AllDigits m.digits := by unfold AllDigits; decide
  have hfirst : m.LeadsAt 0 := ⟨nofun, 9, rfl, by decide⟩
  exact ⟨hdigits, by decide, hfirst, ⟨by decide, 5, rfl, by decide⟩, by decide,
    (rounding_is_half_up hdigits (by decide)).2 0 hfirst⟩

end Reckoner.Decimal
