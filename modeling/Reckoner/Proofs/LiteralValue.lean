import Reckoner.Proofs.BinaryRounding
import Reckoner.Proofs.NumeralText

/-! The value of a literal is the number that the literal writes, rounded once. -/

namespace Reckoner

namespace Binary
variable {p : Nat} {x : Dyadic}

/-- A moderate product with a power of ten is rounded as if it were exact. -/
theorem rounds_timesPowerOfTen (hp : 1 ≤ p) (hx : 0 < x.toRat) {exponent : Int}
    (hm : isModerate p x exponent = true) :
    Rounds p (x.toRat * 10 ^ exponent) (timesPowerOfTen p x exponent) := by
  unfold timesPowerOfTen
  rw [if_pos hm]
  cases x with
  | zero => exact absurd hx (lt_irrefl 0)
  | ofOdd n k hn =>
    have hpos : 0 < n := by
      have hpow : (0 : ℚ) < 2 ^ (-k) := by positivity
      rwa [toRat_eq, mul_pos_iff_of_pos_right hpow, Int.cast_pos] at hx
    have hten : (10 : ℚ) ^ exponent = 5 ^ exponent * 2 ^ exponent := by
      rw [← mul_zpow]
      norm_num
    have hshift : (Dyadic.ofOdd n k hn).toRat * 10 ^ exponent = n * 5 ^ exponent * 2 ^ (exponent - k) := by
      rw [toRat_eq, hten, sub_eq_add_neg, zpow_add₀ (by norm_num)]
      ring
    rw [hshift]
    refine Rounds.shiftLeft ?_ _
    split
    · rename_i hexponent
      have hfive : (5 : ℚ) ^ exponent = (Nat.pow 5 exponent.natAbs : ℕ) := by
        rw [Nat.pow_eq, Nat.cast_pow, ← zpow_natCast, Int.natAbs_of_nonneg hexponent]
        rfl
      have hround := rounds_nearest hp (.ofInt (n * (Nat.pow 5 exponent.natAbs : ℕ)))
      rw [show (Dyadic.ofInt (n * (Nat.pow 5 exponent.natAbs : ℕ))).toRat = n * 5 ^ exponent by
        rw [hfive]
        exact (Dyadic.toRat_intCast _).trans (by push_cast; rfl)] at hround
      exact hround
    · rename_i hexponent
      have hfive : (5 : ℚ) ^ exponent = ((Nat.pow 5 exponent.natAbs : ℕ) : ℚ)⁻¹ := by
        rw [Nat.pow_eq, Nat.cast_pow, ← zpow_natCast, ← zpow_neg]
        congr 1
        omega
      have hcast : (n : ℚ) = (n.natAbs : ℕ) := by
        rw [Nat.cast_natAbs, abs_of_pos hpos]
      rw [decide_eq_false (not_lt.2 hpos.le), hfive, ← div_eq_mul_inv, hcast]
      exact rounds_nearest_ofQuotient hp (by omega) (Nat.pow_pos (by decide))

end Binary

namespace Number
open Text

private theorem Literal.exists_value_eq {p : Nat} {l : Literal} (hp : 1 ≤ p)
    (h : l.exponent.natAbs ≤ 4096 + 2 * p) :
    ∃ v, l.value p = .finite v ∧ Binary.Rounds p l.toRat v := by
  refine ⟨_, rfl, ?_⟩
  rw [Literal.toRat]
  by_cases hzero : digitsToNat l.digits = 0
  · rw [if_pos hzero, hzero]
    simpa using Binary.rounds_of_fits (p := p) (x := 0) (Nat.zero_le p)
  · have hrat : (Dyadic.ofInt (digitsToNat l.digits)).toRat = digitsToNat l.digits :=
      Dyadic.toRat_natCast _
    have hmoderate : Binary.isModerate p (.ofInt (digitsToNat l.digits)) l.exponent = true :=
      decide_eq_true (h.trans (Nat.le_add_right _ _))
    have hsize := Binary.rounds_timesPowerOfTen hp
      (hrat ▸ Nat.cast_pos.2 (Nat.pos_of_ne_zero hzero)) hmoderate
    rw [hrat] at hsize
    rw [if_neg hzero]
    split
    · exact hsize.neg
    · exact hsize

section Written
open Decimal
variable {p : Nat} {m : Mantissa}

/-- The exponent of a literal that stands for a mantissa is moderate if the mantissa is. -/
theorem Numeral.Shows.natAbs_exponent_le {n : Numeral} (hn : n.Shows m) {l : Literal}
    (hl : Literal.read? n.text = some l) :
    l.exponent.natAbs ≤ 2 * m.exponent.natAbs + 1 + m.digits.length := by
  obtain ⟨zeros, hzeros⟩ := exists_eq_dropTrailingZeros_append n.fraction
  have hzeros := congrArg List.length hzeros
  rw [List.length_append] at hzeros
  have hfraction := hn.fraction
  rw [n.read?_text] at hl
  cases hl
  cases he : n.exponent with
  | none =>
    simp only [Option.getD_none]
    omega
  | some e =>
    have := hn.exponent e he
    simp only [Option.getD_some]
    omega

/-- The written form of a mantissa is the text of a numeral, whose value is the number of the mantissa,
rounded once. -/
theorem exists_value_layout (hp : 1 ≤ p) (hdigits : AllDigits m.digits) (hpos : 0 < value m.digits)
    (hexponent : m.exponent.natAbs ≤ 1100) (hlength : m.digits.length ≤ 1800 + 2 * p) (threshold : Int) :
    ∃ (n : Numeral) (l : Literal) (v : Dyadic), n.negative = false ∧
      (∀ negative, layout negative m.digits m.exponent threshold =
        .ok (String.ofList (signText negative ++ n.text))) ∧
      Literal.read? n.text = some l ∧ l.value p = .finite v ∧ Binary.Rounds p m.toRat v := by
  have hmoderate : m.exponent.natAbs ≤ maxTextLength := hexponent.trans (by decide)
  obtain ⟨n, hshows, hlayout⟩ := exists_shows_layout hdigits hpos (limit?_eq_none hmoderate _ threshold)
  obtain ⟨l, hl, hrat⟩ := n.exists_read?_text
  have hmoderate := hshows.natAbs_exponent_le hl
  obtain ⟨v, hv, hround⟩ := l.exists_value_eq hp (by omega)
  rw [hrat, hshows.positive, hshows.size] at hround
  exact ⟨n, l, v, hshows.positive, hlayout, hl, hv, hround⟩

end Written

end Number

end Reckoner
