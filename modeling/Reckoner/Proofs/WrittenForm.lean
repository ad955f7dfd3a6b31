import Reckoner.Proofs.CanonicalText

/-! The written form of digits with an exponent: a numeral, with a minus in front of it or without, that writes
their number exactly, in all four layouts, and one for each number and sign. -/

namespace Reckoner
open Decimal Text

namespace Decimal
variable {ds : List Int} {m : Mantissa}

private theorem AllDigits.value_pos (h : AllDigits ds) (hne : ∃ d, d ∈ ds ∧ d ≠ 0) : 0 < value ds := by
  induction ds with
  | nil => simp at hne
  | cons d ds ih =>
    obtain ⟨⟨hlow, -⟩, hds⟩ := h.of_cons
    by_cases hd : d = 0
    · obtain ⟨e, he, hne⟩ := hne
      have hrest : e ∈ ds := (List.mem_cons.1 he).resolve_left fun hed => hne (hed.trans hd)
      rw [value_cons, hd, zero_mul, zero_add]
      exact ih hds ⟨e, hrest, hne⟩
    · exact lt_of_lt_of_le (by positivity) (h.pow_le_value hd)

private theorem Mantissa.toRat_pos (hpos : 0 < value m.digits) : 0 < m.toRat := by
  have hvalue : (0 : ℚ) < value m.digits := by exact_mod_cast hpos
  exact mul_pos hvalue (by positivity)

/-- The fault of digits that cannot be written. -/
theorem layout_eq_error_iff (hpos : 0 < value ds) (negative : Bool) {exponent threshold : Int} {fault : Fault} :
    layout negative ds exponent threshold = .error fault ↔
      limit? (dropTrailingZeros ds) exponent threshold = some fault := by
  rw [layout_eq negative exponent threshold hpos]
  cases limit? (dropTrailingZeros ds) exponent threshold <;> simp

end Decimal

namespace Number
variable {m r : Mantissa} {threshold : Int} {text : String}

/-- What is written is a numeral, with a minus or without, and is read as the number that it writes. -/
theorem numeral_of_layout (h : AllDigits m.digits) (hpos : 0 < value m.digits) {negative : Bool}
    (htext : layout negative m.digits m.exponent threshold = .ok text) :
    ∃ body l, text.toList = signText negative ++ body ∧ IsNumeral body ∧
      (∀ c, body.head? = some c → c ≠ '+' ∧ c ≠ '-') ∧
      Literal.read? text.toList = some l ∧ l.toRat = if negative then -m.toRat else m.toRat := by
  have hlimit : limit? (dropTrailingZeros m.digits) m.exponent threshold = none := by
    refine Option.eq_none_iff_forall_ne_some.2 fun fault hfault => ?_
    rw [(layout_eq_error_iff hpos negative).2 hfault] at htext
    cases htext
  obtain ⟨n, hshows, hlayout⟩ := exists_shows_layout h hpos hlimit
  obtain ⟨written, l, hwritten, hread, hrat⟩ := exists_layout_eq negative h hpos hlimit
  obtain rfl : written = text := Except.ok.inj (hwritten.symm.trans htext)
  obtain rfl : String.ofList (signText negative ++ n.text) = written :=
    Except.ok.inj ((hlayout negative).symm.trans hwritten)
  exact ⟨n.text, l, String.toList_ofList, Numeral.isNumeral_text hshows.positive,
    fun _ => Numeral.head?_text hshows.positive, hread, hrat⟩

/-- Numbers that are written alike are the same, and so are their signs. -/
theorem eq_of_layout_eq (hm : AllDigits m.digits) (hr : AllDigits r.digits) (hmpos : 0 < value m.digits)
    (hrpos : 0 < value r.digits) {negative negative' : Bool}
    (htext : layout negative m.digits m.exponent threshold = .ok text)
    (htext' : layout negative' r.digits r.exponent threshold = .ok text) :
    negative = negative' ∧ m.toRat = r.toRat := by
  obtain ⟨-, l, -, -, -, hread, hrat⟩ := numeral_of_layout hm hmpos htext
  obtain ⟨-, l', -, -, -, hread', hrat'⟩ := numeral_of_layout hr hrpos htext'
  obtain rfl : l = l' := Option.some.inj (hread.symm.trans hread')
  have hpos := Mantissa.toRat_pos hmpos
  have hpos' := Mantissa.toRat_pos hrpos
  rw [hrat] at hrat'
  cases negative <;> cases negative' <;> simp only [Bool.false_eq_true, if_true, if_false] at hrat' <;>
    first | exact ⟨rfl, by linarith⟩ | linarith

end Number

open Number

/-- The written form is exact and unique. Digits that are not all zero, with any exponent, any sign and any
threshold, are written as a numeral, behind a minus if they are negative, that is read as their number, unless
there is too much to be written: an exponent of more digits than an integer is written with, where it is beyond
the threshold, or more zeros than a text has places for, where it is not. Two that start with a digit other than
zero have the same written form if and only if they have the same sign and the same number. -/
theorem written_form_is_exact_and_unique {m : Mantissa} (hm : AllDigits m.digits)
    (hne : ∃ d, d ∈ m.digits ∧ d ≠ 0) (negative : Bool) (threshold : Int) :
    let written := layout negative m.digits m.exponent threshold
    (∀ fault, written = .error fault ↔
      threshold < m.exponent.natAbs ∧ 10 ^ maxIntegerDigits ≤ (m.exponent - 1).natAbs ∧ fault = .longExponent ∨
      m.exponent.natAbs ≤ threshold ∧ maxTextLength < padding (dropTrailingZeros m.digits) m.exponent ∧
        fault = .tooManyZeros) ∧
    (∀ text, written = .ok text → ∃ body l, text.toList = signText negative ++ body ∧ IsNumeral body ∧
      (∀ c, body.head? = some c → c ≠ '+' ∧ c ≠ '-') ∧
      Literal.read? text.toList = some l ∧ l.toRat = if negative then -m.toRat else m.toRat) ∧
    ∀ (negative' : Bool) (r : Mantissa), AllDigits r.digits → m.LeadsAt 0 → r.LeadsAt 0 →
      ∀ text, written = .ok text →
        (layout negative' r.digits r.exponent threshold = .ok text ↔
          negative = negative' ∧ m.toRat = r.toRat) := by
  intro written
  have hpos := hm.value_pos hne
  refine ⟨fun fault => ?_, fun text htext => numeral_of_layout hm hpos htext,
    fun negative' r hr hmlead hrlead text htext => ⟨fun htext' => ?_, ?_⟩⟩
  · rw [layout_eq_error_iff hpos, limit?_eq_some_iff, exponentLimit_eq]
  · obtain ⟨-, d, hd, hdne⟩ := hrlead
    exact eq_of_layout_eq hm hr hpos (hr.value_pos ⟨d, List.mem_of_getElem? hd, hdne⟩) htext htext'
  · rintro ⟨rfl, hrat⟩
    have htruncates {m : Mantissa} (hm : AllDigits m.digits) (hlead : m.LeadsAt 0) : m.Truncates m.toRat :=
      Mantissa.truncates_toRat hm (by simpa [List.head?_eq_getElem?] using hlead.2)
    rw [← layout_eq_of_toRat_eq (htruncates hm hmlead) (htruncates hr hrlead) hrat]
    exact htext

/-- A small number at the border between two layouts, and the same with zeros behind its digits. -/
theorem small_number_is_written_once :
    let m : Mantissa := ⟨-3, [2, 5]⟩
    let r : Mantissa := ⟨-3, [2, 5, 0, 0]⟩
    AllDigits m.digits ∧ AllDigits r.digits ∧ (∃ d, d ∈ m.digits ∧ d ≠ 0) ∧ m.LeadsAt 0 ∧ r.LeadsAt 0 ∧
      layout true m.digits m.exponent 3 = .ok "-0.00025" ∧ layout true m.digits m.exponent 2 = .ok "-2.5e-4" ∧
      (layout true r.digits r.exponent 3 = .ok "-0.00025" ↔ true = true ∧ m.toRat = r.toRat) := by
  intro m r
  have hm : AllDigits m.digits := by unfold AllDigits; decide
  have hr : AllDigits r.digits := by unfold AllDigits; decide
  have hne : ∃ d, d ∈ m.digits ∧ d ≠ 0 := ⟨2, by decide, by decide⟩
  have hmlead : m.LeadsAt 0 := ⟨nofun, 2, rfl, by decide⟩
  have hrlead : r.LeadsAt 0 := ⟨nofun, 2, rfl, by decide⟩
  have htext : layout true m.digits m.exponent 3 = .ok "-0.00025" := by decide +kernel
  exact ⟨hm, hr, hne, hmlead, hrlead, htext, by decide +kernel,
    (written_form_is_exact_and_unique hm hne true 3).2.2 true r hr hmlead hrlead _ htext⟩

/-- One divided by a large power of ten has no written form: its exponent has more digits than are written. -/
theorem long_exponent_is_not_written :
    AllDigits [1] ∧ (∃ d : Int, d ∈ [1] ∧ d ≠ 0) ∧
      ∀ text, layout false [1] (1 - (Nat.pow 10 4300 : Nat)) 3 ≠ .ok text := by
  refine ⟨by unfold AllDigits; decide, ⟨1, by decide, by decide⟩, fun text htext => ?_⟩
  have hfault : layout false [1] (1 - (Nat.pow 10 4300 : Nat)) 3 = .error .longExponent := by decide +kernel
  rw [hfault] at htext
  cases htext

end Reckoner
