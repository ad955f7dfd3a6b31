import Reckoner.Number.Expansion
import Reckoner.Number.Literal
import Reckoner.Proofs.DecimalRounding
import Reckoner.Proofs.Lexemes
import Mathlib.Tactic.IntervalCases

/-! Numerals and their texts: an optional minus, digits with an optional point, an optional exponent. The
text of a numeral is read as the number that the numeral stands for, and the written form of a mantissa is
the text of a numeral that stands for the mantissa. -/

namespace Reckoner

namespace Decimal
open Text

section Characters
variable {d : Int} {ds : List Int}

/-- What is checked for ten characters holds of every character of a digit text. -/
theorem forall_mem_digitsText {P : Char → Prop} [DecidablePred P]
    (h : ['0', '1', '2', '3', '4', '5', '6', '7', '8', '9'].all (fun c => decide (P c)) = true)
    (hds : AllDigits ds) : ∀ c, c ∈ digitsText ds → P c := by
  intro c hc
  obtain ⟨d, hd, rfl⟩ := List.mem_map.1 hc
  obtain ⟨hlow, hhigh⟩ := hds d hd
  refine forall_mem_of_all h _ ?_
  interval_cases d <;> decide

private theorem digitValue?_digitChar (h : 0 ≤ d ∧ d < 10) : digitValue? (digitChar d) = some d.toNat := by
  obtain ⟨hlow, hhigh⟩ := h
  interval_cases d <;> decide

private theorem foldl_digitsText (h : AllDigits ds) (n : Nat) :
    (((digitsText ds).foldl (fun n c => 10 * n + (digitValue? c).getD 0) n : Nat) : Int) =
      ds.foldl (fun n d => 10 * n + d) (n : Int) := by
  induction ds generalizing n with
  | nil => rfl
  | cons d ds ih =>
    obtain ⟨hd, hds⟩ := h.of_cons
    simp only [digitsText, List.map_cons, List.foldl_cons, digitValue?_digitChar hd, Option.getD_some]
    rw [← digitsText, ih hds]
    push_cast
    rw [Int.toNat_of_nonneg hd.1]

/-- Digits read from a digit text write the same number. -/
theorem digitsToNat_digitsText (h : AllDigits ds) : (digitsToNat (digitsText ds) : Int) = value ds :=
  foldl_digitsText h 0

private theorem joinedDigits?_eq {cs : List Char} (hne : cs ≠ []) (h : ∀ c, c ∈ cs → isDigit c = true) :
    joinedDigits? cs = some cs := by
  fun_induction joinedDigits? cs with
  | case1 => exact absurd rfl hne
  | case2 c hc => rfl
  | case3 c hc => exact absurd (h c List.mem_cons_self) hc
  | case4 c rest hc ih =>
    have hbar := h '_' (List.mem_cons_of_mem _ List.mem_cons_self)
    exact absurd hbar (by decide)
  | case5 c rest hc => exact absurd (h c List.mem_cons_self) hc
  | case6 c rest hrest hbar hc ih =>
    rw [ih hrest fun d hd => h d (List.mem_cons_of_mem _ hd)]
    rfl
  | case7 c rest hrest hbar hc => exact absurd (h c List.mem_cons_self) hc

def signText (negative : Bool) : List Char :=
  if negative then ['-'] else []

theorem forall_mem_signText_append {P : Char → Prop} [DecidablePred P] (hminus : P '-')
    (h : ['0', '1', '2', '3', '4', '5', '6', '7', '8', '9'].all (fun c => decide (P c)) = true)
    (negative : Bool) (hds : AllDigits ds) : ∀ c, c ∈ signText negative ++ digitsText ds → P c := by
  intro c hc
  rcases List.mem_append.1 hc with hc | hc
  · cases negative with
    | false => cases hc
    | true => exact List.mem_singleton.1 hc ▸ hminus
  · exact forall_mem_digitsText h hds c hc

/-- A digit text, with a minus in front of it or without, is read as an integer. -/
theorem read?_signText_append (negative : Bool) (hne : ds ≠ []) (h : AllDigits ds) :
    SignedDigits.read? (signText negative ++ digitsText ds) = some ⟨negative, digitsText ds⟩ := by
  have hblank := forall_mem_signText_append (P := fun c => isBlank c = false) (by decide) (by decide)
    negative h
  have hdigit := forall_mem_digitsText (P := fun c => isDigit c = true) (by decide) h
  have hsplit : splitSign (signText negative ++ digitsText ds) = (negative, digitsText ds) := by
    cases negative with
    | true => rfl
    | false =>
      have hsign := forall_mem_digitsText (P := fun c => c ≠ '-' ∧ c ≠ '+') (by decide) h
      cases ds with
      | nil => exact absurd rfl hne
      | cons d ds =>
        obtain ⟨hminus, hplus⟩ := hsign (digitChar d) List.mem_cons_self
        simp [signText, digitsText, splitSign, hminus, hplus]
  rw [SignedDigits.read?, trimChars_eq_self hblank, hsplit]
  simp [joinedDigits?_eq (by simpa [digitsText] using hne) hdigit]

end Characters

section Integers
variable {n : Nat} {i : Int}

private theorem digitsText_digitsBefore (n : Nat) (tail : List Nat) :
    digitsText ((digitsBefore n tail).map Int.ofNat) =
      Nat.toDigits 10 n ++ digitsText (tail.map Int.ofNat) := by
  have hchar (d : Nat) (h : d < 10) : digitChar (Int.ofNat d) = d.digitChar := by
    interval_cases d <;> rfl
  fun_induction digitsBefore n tail with
  | case1 n tail h =>
    rw [Nat.toDigits_of_lt_base h, ← hchar n h]
    rfl
  | case2 n tail h ih =>
    rw [ih, Nat.toDigits_of_base_le (by decide) (Nat.not_lt.1 h), ← hchar (n % 10) (Nat.mod_lt _ (by decide)),
      List.append_assoc]
    rfl

theorem digitsText_digits (n : Nat) : digitsText ((digits n).map Int.ofNat) = Nat.toDigits 10 n := by
  rw [digits, digitsText_digitsBefore]
  exact List.append_nil _

theorem map_digits_ne_nil (n : Nat) : (digits n).map Int.ofNat ≠ [] := by
  intro hnil
  have htext := digitsText_digits n
  rw [hnil] at htext
  exact Nat.toDigits_ne_nil htext.symm

theorem integerText_eq (i : Int) :
    integerText i = signText (decide (i < 0)) ++ digitsText ((digits i.natAbs).map Int.ofNat) := by
  rw [digitsText_digits, integerText, Int.toString_eq_repr, Int.repr_eq_if]
  split
  · have hnatAbs : i.toNat = i.natAbs := by omega
    simp [signText, hnatAbs, not_lt.2 ‹0 ≤ i›]
  · have hnatAbs : (-i).toNat = i.natAbs := by omega
    simp [signText, hnatAbs, not_le.1 ‹¬0 ≤ i›]

/-- The text of an integer that is not too long is read as that integer. -/
theorem integer?_integerText (h : i.natAbs < 10 ^ maxIntegerDigits) :
    integer? (integerText i) = some i := by
  have hdigits := allDigits_digits i.natAbs
  have hlength : (digitsText ((digits i.natAbs).map Int.ofNat)).length ≤ maxIntegerDigits := by
    rw [digitsText_digits]
    exact (Nat.length_toDigits_le_iff (by decide) (by decide)).2 h
  have hvalue := digitsToNat_digitsText hdigits
  rw [value_digits] at hvalue
  rw [integer?, integerText_eq, read?_signText_append _ (map_digits_ne_nil _) hdigits]
  simp only [Option.bind_eq_bind, Option.bind_some, if_neg (not_lt.2 hlength), SignedDigits.value, hvalue,
    Option.some.injEq]
  split
  · rename_i hneg
    have := of_decide_eq_true hneg
    omega
  · rename_i hneg
    have := of_decide_eq_false (Bool.eq_false_of_not_eq_true hneg)
    omega

end Integers

section Zeros
variable {ds : List Int}

theorem exists_eq_dropTrailingZeros_append (ds : List Int) :
    ∃ n, ds = dropTrailingZeros ds ++ List.replicate n 0 := by
  refine ⟨(ds.reverse.takeWhile (· = 0)).length, ?_⟩
  have htake : ds.reverse.takeWhile (· = 0) =
      List.replicate (ds.reverse.takeWhile (· = 0)).length 0 :=
    List.eq_replicate_iff.2 ⟨rfl, fun d hd => of_decide_eq_true (List.all_eq_true.1 List.all_takeWhile d hd)⟩
  rw [dropTrailingZeros, ← List.reverse_replicate, ← htake, ← List.reverse_append,
    List.takeWhile_append_dropWhile, List.reverse_reverse]

/-- Zeros at the end shift the other digits of a fraction to the left and stand for nothing. -/
theorem value_dropTrailingZeros (whole fraction : List Int) (e : Int) :
    (value (whole ++ dropTrailingZeros fraction) * 10 ^ (e - (dropTrailingZeros fraction).length) : ℚ) =
      value (whole ++ fraction) * 10 ^ (e - fraction.length) := by
  obtain ⟨n, hn⟩ := exists_eq_dropTrailingZeros_append fraction
  have hvalue : value (whole ++ fraction) = value (whole ++ dropTrailingZeros fraction) * 10 ^ n := by
    rw [← value_append_zeros, List.append_assoc, ← hn]
  have hlength : e - (dropTrailingZeros fraction).length = n + (e - fraction.length) := by
    have := congrArg List.length hn
    rw [List.length_append, List.length_replicate] at this
    omega
  rw [hvalue, hlength, zpow_add₀ (by norm_num), zpow_natCast]
  push_cast
  ring

theorem AllDigits.append_dropTrailingZeros {whole : List Int} (h : AllDigits (whole ++ ds)) :
    AllDigits (whole ++ dropTrailingZeros ds) := by
  obtain ⟨n, hn⟩ := exists_eq_dropTrailingZeros_append ds
  rw [hn, ← List.append_assoc] at h
  exact h.of_append.1

private theorem dropTrailingZeros_digitsText (h : AllDigits ds) :
    ((digitsText ds).reverse.dropWhile (· = '0')).reverse = digitsText (dropTrailingZeros ds) := by
  have hdrop {ds : List Int} (h : AllDigits ds) :
      (digitsText ds).dropWhile (· = '0') = digitsText (ds.dropWhile (· = 0)) := by
    induction ds with
    | nil => rfl
    | cons d ds ih =>
      obtain ⟨hd, hds⟩ := h.of_cons
      have hzero : digitChar d = '0' ↔ d = 0 := by
        obtain ⟨hlow, hhigh⟩ := hd
        interval_cases d <;> decide
      rw [digitsText, List.map_cons, List.dropWhile_cons, List.dropWhile_cons]
      simp only [hzero]
      split
      · exact ih hds
      · rfl
  have hreverse (ds : List Int) : digitsText ds.reverse = (digitsText ds).reverse := List.map_reverse
  rw [dropTrailingZeros, hreverse, ← hdrop h.reverse, hreverse]

end Zeros

section Limits
variable {ds : List Int} {exponent threshold : Int}

theorem dropTrailingZeros_ne_nil (hpos : 0 < value ds) : dropTrailingZeros ds ≠ [] := by
  intro hnil
  obtain ⟨zeros, hzeros⟩ := exists_eq_dropTrailingZeros_append ds
  rw [hzeros, hnil, List.nil_append, value_zeros] at hpos
  exact absurd hpos (lt_irrefl 0)

/-- Digits that are not all zero are written, unless they are beyond a limit. -/
theorem layout_eq (negative : Bool) (exponent threshold : Int) (hpos : 0 < value ds) :
    layout negative ds exponent threshold =
      match limit? (dropTrailingZeros ds) exponent threshold with
      | some fault => .error fault
      | none => .ok (String.ofList (signText negative ++
          if threshold < exponent.natAbs then scientific (dropTrailingZeros ds) exponent
          else plain (dropTrailingZeros ds) exponent)) := by
  have hne := dropTrailingZeros_ne_nil hpos
  rw [layout]
  cases hs : dropTrailingZeros ds with
  | nil => exact absurd hs hne
  | cons d ds => cases negative <;> rfl

theorem exponentLimit_eq : exponentLimit = 10 ^ maxIntegerDigits := by
  unfold exponentLimit
  generalize maxIntegerDigits = n
  exact Nat.pow_eq

theorem limit?_eq_some_iff {fault : Fault} :
    limit? ds exponent threshold = some fault ↔
      threshold < exponent.natAbs ∧ exponentLimit ≤ (exponent - 1).natAbs ∧ fault = .longExponent ∨
      exponent.natAbs ≤ threshold ∧ maxTextLength < padding ds exponent ∧ fault = .tooManyZeros := by
  unfold limit?
  split <;> split <;> grind

private theorem padding_le (ds : List Int) (exponent : Int) : padding ds exponent ≤ exponent.natAbs := by
  unfold padding
  split
  · omega
  split <;> omega

/-- The exponent that a mantissa within the limits is written with is short. -/
theorem natAbs_lt_of_limit? (hlimit : limit? ds exponent threshold = none)
    (hlong : threshold < exponent.natAbs) : (exponent - 1).natAbs < 10 ^ maxIntegerDigits := by
  by_contra hlimited
  rw [not_lt, ← exponentLimit_eq] at hlimited
  rw [limit?_eq_some_iff.2 (.inl ⟨hlong, hlimited, rfl⟩)] at hlimit
  cases hlimit

/-- An exponent that is itself no larger than a text may be long meets no limit. -/
theorem limit?_eq_none (h : exponent.natAbs ≤ maxTextLength) (ds : List Int) (threshold : Int) :
    limit? ds exponent threshold = none := by
  cases hlimit : limit? ds exponent threshold with
  | none => rfl
  | some fault =>
    rcases limit?_eq_some_iff.1 hlimit with ⟨-, hlong, -⟩ | ⟨-, hplaces, -⟩
    · have hshort : (exponent - 1).natAbs < exponentLimit :=
        calc (exponent - 1).natAbs < maxTextLength + 2 := by omega
          _ ≤ 10 ^ 19 := by decide
          _ ≤ 10 ^ maxIntegerDigits := Nat.pow_le_pow_right (by decide) (by decide)
          _ = exponentLimit := exponentLimit_eq.symm
      exact absurd hlong (not_le.2 hshort)
    · exact absurd ((padding_le ds exponent).trans h) (not_le.2 hplaces)

end Limits

end Decimal

namespace Number
open Text Decimal

/-- The number that a literal writes, exactly. -/
def Literal.toRat (l : Literal) : ℚ :=
  let size : ℚ := digitsToNat l.digits * 10 ^ l.exponent
  if l.negative then -size else size

/-- A numeral: digits before the point, those after it if there are any, and perhaps an exponent. -/
structure Numeral where
  negative : Bool
  whole : List Int
  fraction : List Int
  exponent : Option Int
  nonempty : whole ≠ []
  digits : AllDigits (whole ++ fraction)
  short : ∀ e, exponent = some e → e.natAbs < 10 ^ maxIntegerDigits

namespace Numeral

theorem short_none (e : Int) (h : none = some e) : e.natAbs < 10 ^ maxIntegerDigits :=
  absurd h (Option.some_ne_none e).symm

def fractionText (fraction : List Int) : List Char :=
  if fraction.isEmpty then [] else '.' :: digitsText fraction

def exponentText : Option Int → List Char
  | none => []
  | some e => 'e' :: integerText e

/-- The text in front of the exponent. -/
def mantissaText (n : Numeral) : List Char :=
  signText n.negative ++ digitsText n.whole ++ fractionText n.fraction

def text (n : Numeral) : List Char :=
  n.mantissaText ++ exponentText n.exponent

theorem text_eq (n : Numeral) :
    n.text = signText n.negative ++
      (digitsText n.whole ++ (fractionText n.fraction ++ exponentText n.exponent)) := by
  simp [text, mantissaText]

/-- The number that a numeral stands for, its sign aside. -/
def size (n : Numeral) : ℚ :=
  value (n.whole ++ n.fraction) * 10 ^ (n.exponent.getD 0 - n.fraction.length)

private theorem exponent?_exponentText (n : Numeral) :
    exponent? (exponentText n.exponent) = some (n.exponent.getD 0) := by
  cases he : n.exponent with
  | none => rfl
  | some e => exact integer?_integerText (n.short e he)

private theorem not_isExponentMark_of_mem (n : Numeral) :
    ∀ c, c ∈ n.mantissaText → (!isExponentMark c) = true := by
  intro c hc
  rcases List.mem_append.1 hc with hc | hc
  · exact forall_mem_signText_append (P := fun c => (!isExponentMark c) = true) (by decide) (by decide)
      n.negative n.digits.of_append.1 c hc
  · rw [fractionText] at hc
    split at hc
    · cases hc
    · rcases List.mem_cons.1 hc with rfl | hc
      · decide
      · exact forall_mem_digitsText (P := fun c => (!isExponentMark c) = true) (by decide)
          n.digits.of_append.2 c hc

private theorem splitPoint_mantissaText (n : Numeral) :
    splitPoint n.mantissaText =
      (signText n.negative ++ digitsText n.whole, digitsText (dropTrailingZeros n.fraction)) := by
  have hwhole := forall_mem_signText_append (P := fun c => decide (c ≠ '.') = true) (by decide)
    (by decide) n.negative n.digits.of_append.1
  have hstops : Stops (fun c => decide (c ≠ '.')) (fractionText n.fraction) := by
    intro c hc
    rw [fractionText] at hc
    split at hc
    · cases hc
    · cases hc
      rfl
  have hne : (signText n.negative ++ digitsText n.whole).isEmpty = false := by
    simp [digitsText, n.nonempty]
  rw [splitPoint, mantissaText, takeWhile_append_of_stops hwhole hstops,
    dropWhile_append_of_stops hwhole hstops, fractionText]
  cases hf : n.fraction with
  | nil => rfl
  | cons d ds =>
    have hzeros := dropTrailingZeros_digitsText n.digits.of_append.2
    rw [hf] at hzeros
    simp only [List.isEmpty_cons, Bool.false_eq_true, if_false, hne, hzeros]

/-- The text of a numeral is read; zeros at the end of the fraction are left away. -/
theorem read?_text (n : Numeral) :
    Literal.read? n.text = some ⟨n.negative, digitsText (n.whole ++ dropTrailingZeros n.fraction),
      n.exponent.getD 0 - (dropTrailingZeros n.fraction).length⟩ := by
  have hstops : Stops (fun c => !isExponentMark c) (exponentText n.exponent) := by
    intro c hc
    cases he : n.exponent with
    | none => rw [he] at hc; cases hc
    | some e => rw [he] at hc; cases hc; rfl
  have hne : n.whole ++ dropTrailingZeros n.fraction ≠ [] := List.append_ne_nil_of_left_ne_nil n.nonempty _
  have happend : signText n.negative ++ digitsText n.whole ++ digitsText (dropTrailingZeros n.fraction) =
      signText n.negative ++ digitsText (n.whole ++ dropTrailingZeros n.fraction) := by
    simp [digitsText]
  rw [Literal.read?, text, dropWhile_append_of_stops n.not_isExponentMark_of_mem hstops,
    takeWhile_append_of_stops n.not_isExponentMark_of_mem hstops, n.exponent?_exponentText,
    n.splitPoint_mantissaText]
  simp only [Option.bind_eq_bind, Option.bind_some, happend, read?_signText_append _ hne
    n.digits.append_dropTrailingZeros]
  simp [digitsText]

/-- What is read of a text stands for the number of the numeral. -/
theorem exists_read?_text (n : Numeral) :
    ∃ l, Literal.read? n.text = some l ∧ l.toRat = if n.negative then -n.size else n.size := by
  refine ⟨_, n.read?_text, ?_⟩
  have hvalue := digitsToNat_digitsText n.digits.append_dropTrailingZeros
  rw [size, ← value_dropTrailingZeros, ← hvalue, Int.cast_natCast]
  rfl

section Pattern
variable {n : Numeral}

theorem isDigits_digitsText {ds : List Int} (hne : ds ≠ []) (h : AllDigits ds) : IsDigits (digitsText ds) :=
  ⟨by simpa [digitsText] using hne, forall_mem_digitsText (P := fun c => isDigit c = true) (by decide) h⟩

private theorem isExponent_exponentText (exponent : Option Int) : IsExponent (exponentText exponent) := by
  cases exponent with
  | none => exact .none
  | some e =>
    have hsign : IsSign (signText (decide (e < 0))) := by
      cases decide (e < 0) with
      | false => exact .inl rfl
      | true => exact .inr (.inr rfl)
    rw [exponentText, integerText_eq]
    exact .some (.inl rfl) hsign (isDigits_digitsText (map_digits_ne_nil _) (allDigits_digits _))

theorem isMantissa_text (n : Numeral) : IsMantissa (digitsText n.whole ++ fractionText n.fraction) := by
  obtain ⟨hwhole, hfraction⟩ := n.digits.of_append
  rw [fractionText]
  split
  · rw [List.append_nil]
    exact .whole (isDigits_digitsText n.nonempty hwhole)
  · exact .point (isDigits_digitsText n.nonempty hwhole)
      (forall_mem_digitsText (P := fun c => isDigit c = true) (by decide) hfraction)

theorem text_of_positive (h : n.negative = false) :
    n.text = digitsText n.whole ++ fractionText n.fraction ++ exponentText n.exponent := by
  rw [n.text_eq, h, List.append_assoc]
  rfl

/-- The text of a numeral without a sign is a numeral of the language. -/
theorem isNumeral_text (h : n.negative = false) : IsNumeral n.text :=
  ⟨[], _, _, text_of_positive h, .inl rfl, n.isMantissa_text, isExponent_exponentText n.exponent⟩

theorem head?_text (h : n.negative = false) {c : Char} (hc : n.text.head? = some c) : c ≠ '+' ∧ c ≠ '-' := by
  obtain ⟨d, rest, hd, hform⟩ := n.isMantissa_text.head
  rw [text_of_positive h, hd] at hc
  cases hc
  rcases hform with hdigit | rfl
  · constructor <;> (rintro rfl; revert hdigit; decide)
  · decide

end Pattern

/-- A numeral that keeps the digits of a mantissa and their last place keeps its number. -/
theorem size_eq_toRat {n : Numeral} {m : Mantissa} (hvalue : value (n.whole ++ n.fraction) = value m.digits)
    (hplace : n.exponent.getD 0 - n.fraction.length = m.exponent - m.digits.length) :
    n.size = m.toRat := by
  rw [size, Mantissa.toRat, Mantissa.lastPlace, hvalue, hplace]

end Numeral

section Layout
variable {m : Mantissa}

/-- A numeral without a sign stands for a mantissa. An exponent, if it has one, is that of the first digit,
and its fraction has no more places than the digits and the zeros between them and the point. -/
structure Numeral.Shows (n : Numeral) (m : Mantissa) : Prop where
  positive : n.negative = false
  size : n.size = m.toRat
  exponent : ∀ e, n.exponent = some e → e = m.exponent - 1
  fraction : n.fraction.length ≤ m.digits.length + m.exponent.natAbs

theorem zeros_eq (n : Nat) : zeros n = digitsText (List.replicate n 0) := by
  rw [zeros, digitsText, List.map_replicate]
  rfl

private theorem exists_shows_scientific {ds : List Int} {exponent : Int} (hne : ds ≠ []) (h : AllDigits ds)
    (hshort : (exponent - 1).natAbs < 10 ^ maxIntegerDigits) :
    ∃ n : Numeral, n.text = scientific ds exponent ∧ n.Shows ⟨exponent, ds⟩ := by
  have hexponent : ∀ e, some (exponent - 1) = some e → e = exponent - 1 :=
    fun e he => (Option.some.inj he).symm
  have hshort : ∀ e, some (exponent - 1) = some e → e.natAbs < 10 ^ maxIntegerDigits :=
    fun e he => hexponent e he ▸ hshort
  match ds, hne, h with
  | [d], _, h =>
    let n : Numeral :=
      ⟨false, [d], [0], some (exponent - 1), List.cons_ne_nil _ _, h.append (allDigits_zeros 1), hshort⟩
    refine ⟨n, n.text_eq, rfl, ?_, hexponent, Nat.le_add_right _ _⟩
    have hvalue : value ([d] ++ [0]) = value [d] * 10 := value_append_zeros [d] 1
    have hpow : (10 : ℚ) ^ (exponent - 1) = 10 * 10 ^ (exponent - 1 - 1) := by
      rw [mul_comm, ← zpow_add_one₀ (by norm_num), sub_add_cancel]
    simp only [n, Numeral.size, Mantissa.toRat, Mantissa.lastPlace, hvalue, List.length_singleton,
      Option.getD_some, Nat.cast_one, hpow]
    push_cast
    rw [mul_assoc]
  | d :: d' :: ds, _, h =>
    let n : Numeral := ⟨false, [d], d' :: ds, some (exponent - 1), List.cons_ne_nil _ _, h, hshort⟩
    refine ⟨n, n.text_eq, rfl, Numeral.size_eq_toRat rfl ?_, hexponent, ?_⟩
    · simp only [n, Option.getD_some, List.length_cons]
      omega
    · simp only [n, List.length_cons]
      omega

/-- Zeros between the digits and the point. -/
theorem exists_shows_digits_zeros (hne : m.digits ≠ []) (h : AllDigits m.digits)
    (hlong : m.digits.length ≤ m.exponent) :
    ∃ n : Numeral, n.text = digitsText m.digits ++ zeros (m.exponent - m.digits.length).toNat ∧
      n.Shows m := by
  have hdigits := h.append (allDigits_zeros (m.exponent - m.digits.length).toNat)
  rw [← List.append_nil (m.digits ++ _)] at hdigits
  let n : Numeral := ⟨false, m.digits ++ List.replicate (m.exponent - m.digits.length).toNat 0, [], none,
    List.append_ne_nil_of_left_ne_nil hne _, hdigits, Numeral.short_none⟩
  refine ⟨n, n.text_eq.trans ?_, rfl, ?_, nofun, Nat.zero_le _⟩
  · simp [n, signText, Numeral.fractionText, Numeral.exponentText, zeros_eq, digitsText]
  · have hpow : (10 : ℚ) ^ (m.exponent - m.digits.length) =
        10 ^ (m.exponent - m.digits.length).toNat := by
      rw [← zpow_natCast, Int.toNat_of_nonneg (by omega)]
    simp [n, Numeral.size, Mantissa.toRat, Mantissa.lastPlace, value_append_zeros, hpow]

/-- Zeros between the point and the digits. -/
theorem exists_shows_zeros_digits (hne : m.digits ≠ []) (h : AllDigits m.digits) (hsmall : m.exponent ≤ 0) :
    ∃ n : Numeral, n.text = '0' :: '.' :: zeros m.exponent.natAbs ++ digitsText m.digits ∧ n.Shows m := by
  let n : Numeral := ⟨false, [0], List.replicate m.exponent.natAbs 0 ++ m.digits, none,
    List.cons_ne_nil _ _, (allDigits_zeros 1).append ((allDigits_zeros _).append h), Numeral.short_none⟩
  refine ⟨n, n.text_eq.trans ?_, rfl, Numeral.size_eq_toRat ?_ ?_, nofun, ?_⟩
  · simp [n, signText, Numeral.fractionText, Numeral.exponentText, zeros_eq, digitsText, hne]
    rfl
  · exact (value_zeros_append 1 _).trans (value_zeros_append _ m.digits)
  · simp only [n, Option.getD_none, List.length_append, List.length_replicate]
    omega
  · simp only [n, List.length_append, List.length_replicate]
    omega

/-- The point between the digits. -/
theorem exists_shows_split (hne : m.digits ≠ []) (h : AllDigits m.digits) (hpos : 0 < m.exponent)
    (hlt : m.exponent < m.digits.length) :
    ∃ n : Numeral, n.text = digitsText (m.digits.take m.exponent.toNat) ++
      '.' :: digitsText (m.digits.drop m.exponent.toNat) ∧ n.Shows m := by
  have htake : m.digits.take m.exponent.toNat ≠ [] := by
    rw [Ne, List.take_eq_nil_iff]
    rintro (hzero | hnil)
    · omega
    · exact hne hnil
  have hdrop : m.digits.drop m.exponent.toNat ≠ [] := by
    rw [Ne, List.drop_eq_nil_iff]
    omega
  let n : Numeral := ⟨false, m.digits.take m.exponent.toNat, m.digits.drop m.exponent.toNat, none, htake,
    by rwa [List.take_append_drop], Numeral.short_none⟩
  refine ⟨n, n.text_eq.trans ?_, rfl, Numeral.size_eq_toRat ?_ ?_, nofun, ?_⟩
  · simp [n, signText, Numeral.fractionText, Numeral.exponentText, hdrop]
  · exact congrArg value (List.take_append_drop ..)
  · simp only [n, Option.getD_none, List.length_drop]
    omega
  · simp only [n, List.length_drop]
    omega

private theorem exists_shows_plain (hne : m.digits ≠ []) (h : AllDigits m.digits) :
    ∃ n : Numeral, n.text = plain m.digits m.exponent ∧ n.Shows m := by
  rw [plain]
  split
  · rename_i hlong
    exact exists_shows_digits_zeros hne h hlong
  split
  · rename_i hsmall
    exact exists_shows_zeros_digits hne h hsmall
  · rename_i hlong hsmall
    exact exists_shows_split hne h (by omega) (by omega)

/-- The written form of a mantissa that is not zero is a sign and the text of a numeral that stands for the
mantissa. -/
theorem exists_shows_layout (h : AllDigits m.digits) (hpos : 0 < value m.digits) {threshold : Int}
    (hlimit : limit? (dropTrailingZeros m.digits) m.exponent threshold = none) :
    ∃ n : Numeral, n.Shows m ∧ ∀ negative, layout negative m.digits m.exponent threshold =
      .ok (String.ofList (signText negative ++ n.text)) := by
  let r : Mantissa := ⟨m.exponent, dropTrailingZeros m.digits⟩
  obtain ⟨zeros, hzeros⟩ := exists_eq_dropTrailingZeros_append m.digits
  have hdigits : AllDigits r.digits := (hzeros ▸ h).of_append.1
  have hne : r.digits ≠ [] := dropTrailingZeros_ne_nil hpos
  obtain ⟨n, htext, hshows⟩ : ∃ n : Numeral, n.text =
      (if threshold < m.exponent.natAbs then scientific r.digits r.exponent
        else plain r.digits r.exponent) ∧ n.Shows r := by
    split
    · rename_i hlong
      exact exists_shows_scientific hne hdigits (natAbs_lt_of_limit? hlimit hlong)
    · exact exists_shows_plain hne hdigits
  have hlength : r.digits.length ≤ m.digits.length := by
    rw [hzeros, List.length_append]
    exact Nat.le_add_right _ _
  refine ⟨n, ⟨hshows.positive, ?_, hshows.exponent, ?_⟩, fun negative => ?_⟩
  · exact hshows.size.trans (value_dropTrailingZeros [] m.digits m.exponent)
  · exact hshows.fraction.trans (Nat.add_le_add_right hlength _)
  · rw [htext, layout_eq negative m.exponent threshold hpos, hlimit]

/-- The written form of a mantissa that is not zero is read as the number of the mantissa. -/
theorem exists_layout_eq (negative : Bool) (h : AllDigits m.digits) (hpos : 0 < value m.digits)
    {threshold : Int} (hlimit : limit? (dropTrailingZeros m.digits) m.exponent threshold = none) :
    ∃ text l, layout negative m.digits m.exponent threshold = .ok text ∧
      Literal.read? text.toList = some l ∧ l.toRat = if negative then -m.toRat else m.toRat := by
  obtain ⟨n, hshows, hlayout⟩ := exists_shows_layout h hpos hlimit
  let signed : Numeral := { n with negative }
  have htext : signed.text = signText negative ++ n.text := by
    rw [signed.text_eq, n.text_eq, hshows.positive]
    rfl
  obtain ⟨l, hl, hread⟩ := signed.exists_read?_text
  refine ⟨_, l, hlayout negative, ?_, ?_⟩
  · rwa [String.toList_ofList, ← htext]
  · rw [hread, show signed.size = m.toRat from hshows.size]

end Layout

end Number

end Reckoner
