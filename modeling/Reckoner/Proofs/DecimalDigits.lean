import Reckoner.Decimal.Layout
import Reckoner.Decimal.Rounding
import Mathlib.Tactic.GCongr
import Mathlib.Tactic.Positivity
import Mathlib.Tactic.Ring

/-! Decimal digits and the number that they write: digits of a natural number write that number, a carry
adds one, and digits that are dropped divide. -/

namespace Reckoner.Decimal

def AllDigits (ds : List Int) : Prop :=
  ∀ d, d ∈ ds → 0 ≤ d ∧ d < 10

section Value
variable {d : Int} {ds es : List Int}

private theorem foldl_eq_value (n : Int) (ds : List Int) :
    ds.foldl (fun n d => 10 * n + d) n = n * 10 ^ ds.length + value ds := by
  induction ds generalizing n with
  | nil => simp [value]
  | cons d ds ih =>
    simp only [value, List.foldl_cons, ih (10 * n + d), ih (10 * 0 + d), List.length_cons, pow_succ]
    ring

theorem value_append (ds es : List Int) : value (ds ++ es) = value ds * 10 ^ es.length + value es := by
  rw [value, List.foldl_append, foldl_eq_value]
  rfl

theorem value_cons (d : Int) (ds : List Int) : value (d :: ds) = d * 10 ^ ds.length + value ds := by
  rw [← List.singleton_append, value_append]
  simp [value]

theorem value_concat (ds : List Int) (d : Int) : value (ds ++ [d]) = 10 * value ds + d := by
  rw [value_append]
  simp [value, mul_comm]

theorem value_zeros (n : Nat) : value (List.replicate n 0) = 0 := by
  induction n with
  | zero => rfl
  | succ n ih => rw [List.replicate_succ, value_cons, ih]; simp

theorem value_append_zeros (ds : List Int) (n : Nat) :
    value (ds ++ List.replicate n 0) = value ds * 10 ^ n := by
  rw [value_append, value_zeros, List.length_replicate, add_zero]

theorem value_zeros_append (n : Nat) (ds : List Int) : value (List.replicate n 0 ++ ds) = value ds := by
  rw [value_append, value_zeros, zero_mul, zero_add]

theorem AllDigits.of_append (h : AllDigits (ds ++ es)) : AllDigits ds ∧ AllDigits es :=
  ⟨fun d hd => h d (List.mem_append_left _ hd), fun d hd => h d (List.mem_append_right _ hd)⟩

theorem AllDigits.append (h : AllDigits ds) (h' : AllDigits es) : AllDigits (ds ++ es) :=
  fun d hd => (List.mem_append.1 hd).elim (h d) (h' d)

theorem allDigits_zeros (n : Nat) : AllDigits (List.replicate n 0) := by
  intro d hd
  rw [List.eq_of_mem_replicate hd]
  decide

theorem AllDigits.of_cons (h : AllDigits (d :: ds)) : (0 ≤ d ∧ d < 10) ∧ AllDigits ds :=
  List.forall_mem_cons.1 h

theorem AllDigits.reverse (h : AllDigits ds) : AllDigits ds.reverse :=
  fun d hd => h d (List.mem_reverse.1 hd)

theorem AllDigits.value_bounds (h : AllDigits ds) : 0 ≤ value ds ∧ value ds < 10 ^ ds.length := by
  induction ds with
  | nil => simp [value]
  | cons d ds ih =>
    obtain ⟨⟨hlow, hhigh⟩, hds⟩ := h.of_cons
    obtain ⟨hnonneg, hlt⟩ := ih hds
    have hpow : (0 : Int) < 10 ^ ds.length := by positivity
    rw [value_cons, List.length_cons, pow_succ]
    constructor
    · positivity
    · calc d * 10 ^ ds.length + value ds < d * 10 ^ ds.length + 10 ^ ds.length := by gcongr
        _ = (d + 1) * 10 ^ ds.length := by ring
        _ ≤ 10 * 10 ^ ds.length := mul_le_mul_of_nonneg_right (by omega) hpow.le
        _ = 10 ^ ds.length * 10 := mul_comm _ _

/-- Digits that start with one other than zero write a number of that length. -/
theorem AllDigits.pow_le_value (h : AllDigits (d :: ds)) (hd : d ≠ 0) : 10 ^ ds.length ≤ value (d :: ds) := by
  obtain ⟨⟨hlow, -⟩, hds⟩ := h.of_cons
  have hpow : (0 : Int) < 10 ^ ds.length := by positivity
  have hone : 10 ^ ds.length ≤ d * 10 ^ ds.length := le_mul_of_one_le_left hpow.le (by omega)
  rw [value_cons]
  exact le_add_of_le_of_nonneg hone hds.value_bounds.1

theorem value_take {n : Nat} (h : AllDigits ds) :
    value (ds.take n) = value ds / 10 ^ (ds.length - n) := by
  have hsplit := value_append (ds.take n) (ds.drop n)
  obtain ⟨hnonneg, hlt⟩ := (List.take_append_drop n ds ▸ h : AllDigits _).of_append.2.value_bounds
  rw [List.take_append_drop] at hsplit
  rw [List.length_drop] at hsplit hlt
  rw [hsplit, mul_comm, Int.mul_add_ediv_left _ _ (by positivity), Int.ediv_eq_zero_of_lt hnonneg hlt,
    add_zero]

private theorem value_take_succ {n : Nat} (hd : ds[n]? = some d) :
    value (ds.take (n + 1)) = 10 * value (ds.take n) + d := by
  rw [List.take_add_one, hd]
  exact value_concat ..

end Value

section Natural
variable {n : Nat} {tail : List Nat}

private theorem value_digitsBefore (n : Nat) (tail : List Nat) :
    value ((digitsBefore n tail).map Int.ofNat) =
      n * 10 ^ tail.length + value (tail.map Int.ofNat) := by
  fun_induction digitsBefore n tail with
  | case1 n tail h => simp [value_cons]
  | case2 n tail h ih =>
    have hsplit : (n : Int) = (n / 10 : Nat) * 10 + (n % 10 : Nat) := by omega
    simp only [ih, List.map_cons, value_cons, List.length_cons, List.length_map, pow_succ,
      Int.ofNat_eq_natCast]
    rw [hsplit]
    ring

theorem value_digits (n : Nat) : value ((digits n).map Int.ofNat) = n := by
  rw [digits, value_digitsBefore]
  simp [value]

private theorem lt_of_mem_digitsBefore {d : Nat} (h : ∀ d, d ∈ tail → d < 10)
    (hd : d ∈ digitsBefore n tail) : d < 10 := by
  fun_induction digitsBefore n tail with
  | case1 n tail hn =>
    rcases List.mem_cons.1 hd with rfl | hd
    · exact hn
    · exact h d hd
  | case2 n tail hn ih =>
    refine ih (fun d hd => ?_) hd
    rcases List.mem_cons.1 hd with rfl | hd
    · exact Nat.mod_lt _ (by decide)
    · exact h d hd

theorem allDigits_digits (n : Nat) : AllDigits ((digits n).map Int.ofNat) := by
  intro d hd
  obtain ⟨k, hk, rfl⟩ := List.mem_map.1 hd
  have := lt_of_mem_digitsBefore (List.forall_mem_nil _) hk
  constructor <;> simp only [Int.ofNat_eq_natCast] <;> omega

/-- The first digit of a number other than zero differs from zero. -/
theorem exists_digitsBefore_eq (h : n ≠ 0) (tail : List Nat) :
    ∃ d ds, digitsBefore n tail = d :: ds ∧ d ≠ 0 := by
  fun_induction digitsBefore n tail with
  | case1 n tail hn => exact ⟨n, tail, rfl, h⟩
  | case2 n tail hn ih => exact ih (by omega)

end Natural

section Sum
variable {ds : List Int}

private theorem value_carry (ds : List Int) : value (carry ds).reverse = value ds.reverse + 1 := by
  induction ds with
  | nil => rfl
  | cons d ds ih =>
    rw [carry, List.reverse_cons, value_concat]
    split
    · rw [List.reverse_cons, value_concat, ih]
      omega
    · rw [List.reverse_cons, value_concat]
      omega

private theorem allDigits_carry (h : AllDigits ds) : AllDigits (carry ds) := by
  induction ds with
  | nil => simp [AllDigits, carry]
  | cons d ds ih =>
    obtain ⟨hd, hds⟩ := h.of_cons
    rw [carry]
    split
    · exact List.forall_mem_cons.2 ⟨by decide, ih hds⟩
    · exact List.forall_mem_cons.2 ⟨by omega, hds⟩

/-- A carry makes the digits longer by one at most. -/
theorem length_carry (ds : List Int) :
    (carry ds).length = ds.length ∨ (carry ds).length = ds.length + 1 := by
  induction ds with
  | nil => exact .inr rfl
  | cons d ds ih =>
    rw [carry]
    split
    · simpa using ih
    · exact .inl rfl

/-- Digits become more by a carry only if all of them are nines. -/
theorem length_carry_eq_succ_iff (ds : List Int) :
    (carry ds).length = ds.length + 1 ↔ ∀ d, d ∈ ds → d = 9 := by
  induction ds with
  | nil => simp [carry]
  | cons d ds ih =>
    rw [carry, List.forall_mem_cons]
    split
    · rename_i hten
      have hnine : d = 9 := by omega
      simp [ih, hnine]
    · rename_i hten
      have hnine : d ≠ 9 := by omega
      simp [hnine]

theorem exists_addOne?_eq (hne : ds ≠ []) (h : AllDigits ds) :
    ∃ es, addOne? ds = some es ∧ AllDigits es ∧ value es = value ds + 1 ∧
      (es.length = ds.length ∨ es.length = ds.length + 1) := by
  refine ⟨(carry ds.reverse).reverse, ?_, (allDigits_carry h.reverse).reverse, ?_, ?_⟩
  · rw [addOne?, if_neg (by simpa using hne)]
  · rw [value_carry, List.reverse_reverse]
  · simpa using length_carry ds.reverse

theorem lt_length_addOne?_iff {es : List Int} (hes : addOne? ds = some es) :
    ds.length < es.length ↔ ∀ d, d ∈ ds → d = 9 := by
  rw [addOne?] at hes
  split at hes
  · cases hes
  · cases hes
    have hlength := length_carry ds.reverse
    have hnines := length_carry_eq_succ_iff ds.reverse
    simp only [List.length_reverse, List.mem_reverse] at hlength hnines ⊢
    rw [← hnines]
    omega

end Sum

/-- The place of the last digit: a mantissa is worth the number of its digits at this power of ten. -/
def Mantissa.lastPlace (m : Mantissa) : Int :=
  m.exponent - m.digits.length

/-- A cut keeps digits up to its place, and counts the half of one there as a whole. -/
theorem exists_cutAt_eq {m : Mantissa} (h : AllDigits m.digits) {cut : Nat} (hpos : 0 < cut)
    (hlt : cut < m.digits.length) :
    ∃ r, cutAt m cut = .ok r ∧ AllDigits r.digits ∧
      value r.digits = (value (m.digits.take (cut + 1)) + 5) / 10 ∧
      r.lastPlace = m.exponent - cut ∧ (r.exponent = m.exponent ∨ r.exponent = m.exponent + 1) := by
  obtain ⟨d, hd⟩ : ∃ d, m.digits[cut]? = some d := ⟨_, List.getElem?_eq_getElem hlt⟩
  obtain ⟨hlow, hhigh⟩ := h d (List.mem_of_getElem? hd)
  have hkept : AllDigits (m.digits.take cut) := fun d hd => h d (List.mem_of_mem_take hd)
  have hlength : (m.digits.take cut).length = cut := List.length_take_of_le hlt.le
  have hne : m.digits.take cut ≠ [] := List.ne_nil_of_length_pos (by omega)
  rw [value_take_succ hd]
  simp only [cutAt, hd]
  split
  · obtain ⟨es, hes, hdigits, hvalue, hgrows⟩ := exists_addOne?_eq hne hkept
    simp only [hes]
    refine ⟨_, rfl, hdigits, by dsimp only; omega, ?_⟩
    rcases hgrows with hgrows | hgrows <;> simp [Mantissa.lastPlace, hgrows, hlength]
  · exact ⟨_, rfl, hkept, by dsimp only; omega, by simp [Mantissa.lastPlace, hlength], .inl rfl⟩

/-- The first digit other than zero stands at an index. -/
def Mantissa.LeadsAt (m : Mantissa) (first : Nat) : Prop :=
  (∀ j, j < first → m.digits[j]? = some 0) ∧ ∃ d, m.digits[first]? = some d ∧ d ≠ 0

theorem findIdx?_eq_some_iff {m : Mantissa} {first : Nat} :
    m.digits.findIdx? (· ≠ 0) = some first ↔ m.LeadsAt first := by
  rw [List.findIdx?_eq_some_iff_getElem, Mantissa.LeadsAt]
  constructor
  · rintro ⟨hfirst, hd, hzeros⟩
    refine ⟨fun j hj => ?_, m.digits[first], List.getElem?_eq_getElem hfirst, by simpa using hd⟩
    rw [List.getElem?_eq_getElem (hj.trans hfirst)]
    simpa using hzeros j hj
  · rintro ⟨hzeros, d, hd, hne⟩
    obtain ⟨hfirst, rfl⟩ := List.getElem?_eq_some_iff.1 hd
    refine ⟨hfirst, by simpa using hne, fun j hj => ?_⟩
    have hzero := hzeros j hj
    rw [List.getElem?_eq_getElem (hj.trans hfirst)] at hzero
    simpa using hzero

/-- Digits are rounded at the count, taken from the first digit other than zero. -/
theorem roundTo_of_leadsAt {m : Mantissa} {first : Nat} (hlead : m.LeadsAt first) {count : Int}
    (hpos : 1 ≤ count) :
    roundTo m count =
      if m.digits.length ≤ first + count then .ok (some m) else some <$> cutAt m (first + count).toNat := by
  have hplace : place m.digits.length (first + count) = first + count := if_neg (by omega)
  simp only [roundTo, findIdx?_eq_some_iff.2 hlead, hplace]
  rw [if_neg (by omega : ¬(first : Int) + count < 0)]

/-- Digits that start with one other than zero are rounded at the count itself. -/
theorem roundTo_eq {m : Mantissa} (hlead : ∃ d, m.digits.head? = some d ∧ d ≠ 0) {count : Int}
    (hpos : 1 ≤ count) :
    roundTo m count =
      if m.digits.length ≤ count then .ok (some m) else some <$> cutAt m count.toNat := by
  have hfirst : m.LeadsAt 0 := ⟨nofun, by rwa [← List.head?_eq_getElem?]⟩
  simpa only [Nat.cast_zero, zero_add] using roundTo_of_leadsAt hfirst hpos

theorem exists_roundTo_eq {m : Mantissa} (h : AllDigits m.digits)
    (hlead : ∃ d, m.digits.head? = some d ∧ d ≠ 0) {count : Int} (hpos : 1 ≤ count)
    (hlt : count < m.digits.length) :
    ∃ r, roundTo m count = .ok (some r) ∧ AllDigits r.digits ∧
      value r.digits = (value (m.digits.take (count.toNat + 1)) + 5) / 10 ∧
      r.lastPlace = m.exponent - count ∧ (r.exponent = m.exponent ∨ r.exponent = m.exponent + 1) := by
  have hcut : 0 < count.toNat ∧ count.toNat < m.digits.length := by omega
  obtain ⟨r, hr, hdigits, hvalue, hplace, hexponent⟩ := exists_cutAt_eq h hcut.1 hcut.2
  refine ⟨r, ?_, hdigits, hvalue, by omega, hexponent⟩
  rw [roundTo_eq hlead hpos, if_neg (not_le.2 hlt), hr]
  rfl

end Reckoner.Decimal
