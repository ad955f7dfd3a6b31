import Reckoner.Proofs.NumeralText

/-! The written form of a mantissa is settled by the number that the mantissa writes: the exponent and the
digits without zeros at their end are those of the number. Rounding keeps the first digit from zero, so that
this holds of what is rounded. -/

namespace Reckoner.Decimal

section Leading
variable {ds : List Int} {m r : Mantissa}

/-- A carry ends, away from the last digit, in a digit other than zero. -/
theorem exists_getLast?_carry (h : AllDigits ds) (hlast : ∀ d, ds.getLast? = some d → d ≠ 0) :
    ∃ d, (carry ds).getLast? = some d ∧ d ≠ 0 := by
  induction ds with
  | nil => exact ⟨1, rfl, by decide⟩
  | cons d ds ih =>
    obtain ⟨hd, hds⟩ := h.of_cons
    have hrest : ∀ e, ds.getLast? = some e → e ≠ 0 := by
      intro e he
      refine hlast e ?_
      rw [List.getLast?_cons, he]
      rfl
    rw [carry]
    split
    · obtain ⟨e, he, hne⟩ := ih hds hrest
      refine ⟨e, ?_, hne⟩
      rw [List.getLast?_cons, he]
      rfl
    · rw [List.getLast?_cons]
      cases he : ds.getLast? with
      | none => exact ⟨d + 1, rfl, by omega⟩
      | some e => exact ⟨e, rfl, hrest e he⟩

private theorem exists_head?_cutAt (h : AllDigits m.digits) (hlead : ∃ d, m.digits.head? = some d ∧ d ≠ 0)
    {cut : Nat} (hpos : 0 < cut) (hr : cutAt m cut = .ok r) : ∃ d, r.digits.head? = some d ∧ d ≠ 0 := by
  have hkept : (m.digits.take cut).head? = m.digits.head? := by
    rw [List.head?_take, if_neg (by omega)]
  unfold cutAt at hr
  split at hr
  · cases hr
  dsimp only at hr
  split at hr
  · split at hr
    · cases hr
    · rename_i es hes
      cases hr
      rw [addOne?] at hes
      split at hes
      · cases hes
      · cases hes
        obtain ⟨d, hd, hne⟩ := hlead
        rw [List.head?_reverse]
        refine exists_getLast?_carry (fun d hd => h d (List.mem_of_mem_take (List.mem_reverse.1 hd))) ?_
        intro e he
        rw [List.getLast?_reverse, hkept, hd] at he
        exact Option.some.inj he ▸ hne
  · cases hr
    exact hkept ▸ hlead

/-- What is rounded starts with a digit other than zero, like what it is rounded from. -/
theorem exists_head?_roundTo (h : AllDigits m.digits) (hlead : ∃ d, m.digits.head? = some d ∧ d ≠ 0)
    {count : Int} (hpos : 1 ≤ count) (hr : roundTo m count = .ok (some r)) :
    ∃ d, r.digits.head? = some d ∧ d ≠ 0 := by
  rw [roundTo_eq hlead hpos] at hr
  split at hr
  · cases hr
    exact hlead
  · cases hcut : cutAt m count.toNat with
    | error fault =>
      rw [hcut] at hr
      cases hr
    | ok cut =>
      rw [hcut] at hr
      cases hr
      exact exists_head?_cutAt h hlead (by omega) hcut

theorem Mantissa.truncates_toRat (h : AllDigits m.digits) (hlead : ∃ d, m.digits.head? = some d ∧ d ≠ 0) :
    m.Truncates m.toRat := by
  refine ⟨h, hlead, ?_⟩
  rw [toRat, mul_div_cancel_right₀ _ (by positivity), Int.floor_intCast]

end Leading

section Unique
variable {ds es : List Int}

private theorem AllDigits.eq_of_value_eq (h : AllDigits ds) (h' : AllDigits es) (hlength : ds.length = es.length)
    (hvalue : value ds = value es) : ds = es := by
  induction ds generalizing es with
  | nil => exact (List.eq_nil_of_length_eq_zero hlength.symm).symm
  | cons d ds ih =>
    cases es with
    | nil => cases hlength
    | cons e es =>
      obtain ⟨-, hds⟩ := h.of_cons
      obtain ⟨-, hes⟩ := h'.of_cons
      have hlength : ds.length = es.length := Nat.succ.inj hlength
      obtain ⟨hlow, hhigh⟩ := hds.value_bounds
      obtain ⟨hlow', hhigh'⟩ := hes.value_bounds
      rw [value_cons, value_cons, hlength] at hvalue
      rw [hlength] at hhigh
      have hpow : (10 : Int) ^ es.length ≠ 0 := by positivity
      have hfirst : d = e := by
        have hdiv := congrArg (· / (10 : Int) ^ es.length) hvalue
        simpa only [mul_comm _ ((10 : Int) ^ es.length), Int.mul_add_ediv_left _ _ hpow,
          Int.ediv_eq_zero_of_lt hlow hhigh, Int.ediv_eq_zero_of_lt hlow' hhigh', add_zero] using hdiv
      have hrest : value ds = value es := by
        rw [hfirst] at hvalue
        omega
      rw [hfirst, ih hds hes hlength hrest]

private theorem dropTrailingZeros_append_zeros (ds : List Int) (n : Nat) :
    dropTrailingZeros (ds ++ List.replicate n 0) = dropTrailingZeros ds := by
  simp [dropTrailingZeros]

/-- A number lies between two neighbouring powers of ten in one place only. -/
theorem exponent_unique {x : ℚ} {j k : ℤ} (hj : 10 ^ (j - 1) ≤ x ∧ x < 10 ^ j)
    (hk : 10 ^ (k - 1) ≤ x ∧ x < 10 ^ k) : j = k := by
  have hjk := (zpow_lt_zpow_iff_right₀ (by norm_num : (1 : ℚ) < 10)).1 (hj.1.trans_lt hk.2)
  have hkj := (zpow_lt_zpow_iff_right₀ (by norm_num : (1 : ℚ) < 10)).1 (hk.1.trans_lt hj.2)
  omega

end Unique

/-- Mantissas of one number, the longer of which has only zeros behind the digits of the other. -/
theorem Mantissa.digits_eq_append_zeros {m r : Mantissa} (hm : AllDigits m.digits) (hr : AllDigits r.digits)
    (hexponent : m.exponent = r.exponent) (h : m.toRat = r.toRat) (hle : m.digits.length ≤ r.digits.length) :
    r.digits = m.digits ++ List.replicate (r.digits.length - m.digits.length) 0 := by
  refine hr.eq_of_value_eq (hm.append (allDigits_zeros _)) ?_ ?_
  · simp [hle]
  · have hplace : m.lastPlace = (r.digits.length - m.digits.length : ℕ) + r.lastPlace := by
      rw [Mantissa.lastPlace, Mantissa.lastPlace, hexponent]
      omega
    have hpow : (0 : ℚ) < 10 ^ r.lastPlace := by positivity
    rw [Mantissa.toRat, Mantissa.toRat, hplace, zpow_add₀ (by norm_num), zpow_natCast, ← mul_assoc] at h
    rw [value_append_zeros]
    exact_mod_cast (mul_right_cancel₀ hpow.ne' h).symm

/-- Two mantissas of one number are written alike. -/
theorem layout_eq_of_toRat_eq {m r : Mantissa} (hm : m.Truncates m.toRat) (hr : r.Truncates r.toRat)
    (h : m.toRat = r.toRat) (negative : Bool) (threshold : Int) :
    layout negative m.digits m.exponent threshold = layout negative r.digits r.exponent threshold := by
  have hexponent : m.exponent = r.exponent := exponent_unique (h ▸ hm.bounds) hr.bounds
  have hdigits : dropTrailingZeros m.digits = dropTrailingZeros r.digits := by
    rcases le_total m.digits.length r.digits.length with hle | hle
    · rw [Mantissa.digits_eq_append_zeros hm.digits hr.digits hexponent h hle, dropTrailingZeros_append_zeros]
    · rw [Mantissa.digits_eq_append_zeros hr.digits hm.digits hexponent.symm h.symm hle,
        dropTrailingZeros_append_zeros]
  rw [layout, layout, hdigits, hexponent]

end Reckoner.Decimal
