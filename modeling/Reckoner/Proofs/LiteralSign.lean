import Reckoner.Number.Literal
import Reckoner.Proofs.Lexemes

/-! Literals without a minus: their value is finite and not negative, whatever is rounded on the way. -/

namespace Reckoner
open Text

namespace Binary

theorem isNegative_ofIntWithPrec {n : Int} (h : 0 ≤ n) (k : Int) :
    isNegative (.ofIntWithPrec n k) = false := by
  rw [Dyadic.ofIntWithPrec]
  split
  · rfl
  · have := Int.le_shiftRight_of_nonneg (s := n.trailingZeros) h
    simp only [isNegative, decide_eq_false_iff_not]
    omega

private theorem isNegative_shiftLeft (x : Dyadic) (i : Int) : isNegative (x <<< i) = isNegative x := by
  cases x <;> rfl

private theorem isNegative_nearest (p : Nat) {x : Dyadic} (h : isNegative x = false) :
    isNegative (nearest p x) = false := by
  cases x with
  | zero => rfl
  | ofOdd n k hn =>
    simp only [nearest]
    split
    · exact h
    · rw [show decide (n < 0) = false from h]
      exact isNegative_ofIntWithPrec (Int.natCast_nonneg _) _

private theorem isNegative_ofQuotient (p n d : Nat) : isNegative (ofQuotient p false n d) = false :=
  isNegative_ofIntWithPrec (Int.natCast_nonneg _) _

private theorem lo_expSmall (w : Nat) (r : Bracket) : 0 ≤ (Bracket.expSmall w r).lo :=
  Int.le_max_left ..

theorem isNegative_decimalBounds {x lo hi : Dyadic} {exponent : Int} {w : Nat}
    (h : decimalBounds x exponent w = some (lo, hi)) : isNegative lo = false := by
  cases x with
  | zero => cases h
  | ofOdd n k hn =>
    simp only [decimalBounds] at h
    obtain ⟨⟨r, j⟩, hexp, hbounds⟩ := Option.map_eq_some_iff.1 h
    obtain ⟨⟨r', j'⟩, -, hr⟩ := Option.bind_eq_some_iff.1 hexp
    cases hr
    cases hbounds
    exact isNegative_ofIntWithPrec (lo_expSmall w r') _

/-- What a settled number looks like is seen at zero or at one of the lower bounds. -/
theorem exists_settle_eq {α : Type} [DecidableEq α] (view : Dyadic → α)
    (bounds : Nat → Option (Dyadic × Dyadic)) (fuel w : Nat) :
    ∃ x, settle view bounds fuel w = view x ∧
      (x = 0 ∨ ∃ w hi, bounds w = some (x, hi)) := by
  induction fuel generalizing w with
  | zero =>
    rw [settle]
    cases hb : bounds w with
    | none => exact ⟨0, rfl, .inl rfl⟩
    | some b => exact ⟨b.1, rfl, .inr ⟨w, b.2, hb⟩⟩
  | succ fuel ih =>
    rw [settle]
    split
    · rename_i lo hi hb
      split
      · exact ⟨lo, rfl, .inr ⟨w, hi, hb⟩⟩
      · exact ih (2 * w)
    · exact ih (2 * w)

private theorem isNegative_timesPowerOfTen (p : Nat) {x : Dyadic} (exponent : Int)
    (h : isNegative x = false) : isNegative (timesPowerOfTen p x exponent) = false := by
  unfold timesPowerOfTen
  split
  · cases x with
    | zero => rfl
    | ofOdd n k hn =>
      have hdecide : decide (n < 0) = false := h
      have hn : 0 ≤ n := by simpa using hdecide
      simp only [isNegative_shiftLeft]
      refine isNegative_nearest p ?_
      split
      · exact isNegative_ofIntWithPrec (Int.mul_nonneg hn (Int.natCast_nonneg _)) 0
      · rw [hdecide]
        exact isNegative_ofQuotient ..
  · obtain ⟨y, hy, hzero | ⟨w, hi, hb⟩⟩ := exists_settle_eq (nearest p) (decimalBounds x exponent)
      doublings (decimalStart p exponent)
    · rw [settleNearest, hy, hzero]
      rfl
    · rw [settleNearest, hy]
      exact isNegative_nearest p (isNegative_decimalBounds hb)

end Binary

namespace Number

private theorem Literal.value_sign (p : Nat) {l : Literal} (h : l.negative = false) :
    (l.value p).isFinite = true ∧ (l.value p).isNegative = false := by
  refine ⟨rfl, ?_⟩
  simp only [Literal.value, h, isNegative]
  split
  · rfl
  · exact Binary.isNegative_timesPowerOfTen p _
      (Binary.isNegative_ofIntWithPrec (Int.natCast_nonneg _) 0)

theorem head?_of_takeWhile {p : Char → Bool} {cs : List Char} {c : Char}
    (h : (cs.takeWhile p).head? = some c) : cs.head? = some c := by
  cases cs with
  | nil => cases h
  | cons d cs =>
    rw [List.takeWhile_cons] at h
    split at h
    · exact h
    · cases h

/-- Splitting at the point adds at most a zero. -/
theorem mem_splitPoint {cs : List Char} {c : Char}
    (h : c ∈ (splitPoint cs).1 ++ (splitPoint cs).2) : c ∈ cs ∨ c = '0' := by
  simp only [splitPoint] at h
  split at h
  · rw [List.append_nil] at h
    exact .inl ((List.takeWhile_prefix _).subset h)
  · rename_i point fraction hpoint
    rcases List.mem_append.1 h with h | h
    · split at h
      · exact .inr (List.mem_singleton.1 h)
      · exact .inl ((List.takeWhile_prefix _).subset h)
    · rw [List.mem_reverse] at h
      have hc := List.mem_reverse.1 ((List.dropWhile_suffix _).subset h)
      have hsub : c ∈ cs.dropWhile (· ≠ '.') := hpoint ▸ List.mem_cons_of_mem _ hc
      exact .inl ((List.dropWhile_suffix _).subset hsub)

private theorem head?_splitPoint {cs : List Char} {c : Char}
    (h : ((splitPoint cs).1 ++ (splitPoint cs).2).head? = some c) :
    cs.head? = some c ∨ c = '0' := by
  simp only [splitPoint] at h
  split at h
  · rw [List.append_nil] at h
    exact .inl (head?_of_takeWhile h)
  · split at h
    · exact .inr (Option.some.inj h).symm
    · rename_i hne
      cases hw : cs.takeWhile (· ≠ '.') with
      | nil => exact absurd (by rw [hw]; rfl) hne
      | cons d ds =>
        refine .inl (head?_of_takeWhile (p := (· ≠ '.')) ?_)
        rw [hw] at h ⊢
        exact h

/-- An integer has a minus only if its text starts with one. -/
theorem read?_negative {cs : List Char} {n : SignedDigits} (h : SignedDigits.read? cs = some n)
    (hb : ∀ c, c ∈ cs → isBlank c = false) (hm : cs.head? ≠ some '-') : n.negative = false := by
  simp only [SignedDigits.read?, trimChars_eq_self hb] at h
  obtain ⟨ds, -, rfl⟩ := Option.map_eq_some_iff.1 h
  cases cs with
  | nil => rfl
  | cons c cs =>
    have hc : c ≠ '-' := fun hc => hm (by rw [hc]; rfl)
    by_cases hp : c = '+'
    · subst hp
      rfl
    · simp [splitSign, hp, hc]

private theorem Literal.read?_negative {cs : List Char} {l : Literal} (h : Literal.read? cs = some l)
    (hb : ∀ c, c ∈ cs → isBlank c = false) (hm : cs.head? ≠ some '-') : l.negative = false := by
  obtain ⟨exponent, -, h⟩ := Option.bind_eq_some_iff.1 h
  rcases hs : splitPoint (cs.takeWhile fun c => !isExponentMark c) with ⟨whole, fraction⟩
  simp only [hs] at h
  obtain ⟨n, hn, h⟩ := Option.bind_eq_some_iff.1 h
  cases h
  have hparts : whole ++ fraction = (splitPoint (cs.takeWhile fun c => !isExponentMark c)).1 ++
      (splitPoint (cs.takeWhile fun c => !isExponentMark c)).2 := by rw [hs]
  refine Number.read?_negative hn (fun c hc => ?_) fun hhead => ?_
  · rw [hparts] at hc
    rcases mem_splitPoint hc with hc | rfl
    · exact hb c ((List.takeWhile_prefix _).subset hc)
    · rfl
  · rw [hparts] at hhead
    rcases head?_splitPoint hhead with hhead | hhead
    · exact hm (head?_of_takeWhile hhead)
    · cases hhead

/-- No character of a numeral is a letter of the words for infinities and the undefined value, an `n`. -/
theorem toLower_ne_of_isNumeral {cs : List Char} (h : IsNumeral cs) {c : Char} (hc : c ∈ cs) :
    c.toLower ≠ 'n' := by
  rcases h.mem hc with hd | hc
  · obtain ⟨z, hz, k, hk, hc⟩ := isDigit_iff.1 hd
    have hall : ∀ z, z ∈ zeroDigits → ∀ k, k < 10 → (Char.ofNat (z + k)).toLower ≠ 'n' := by
      decide +kernel
    have he : c = Char.ofNat (z + k) := by rw [← hc, Char.ofNat_toNat]
    exact he ▸ hall z hz k hk
  · exact forall_mem_of_all (P := fun c => c.toLower ≠ 'n') (by decide) c hc

private theorem named?_of_isNumeral {cs : List Char} (h : IsNumeral cs) : named? cs = none := by
  have hword (word : List Char) (hw : 'n' ∈ word) :
      String.ofList (cs.map Char.toLower) ≠ String.ofList word := by
    intro he
    rw [String.ofList_inj] at he
    rw [← he] at hw
    obtain ⟨c, hc, hn⟩ := List.mem_map.1 hw
    exact toLower_ne_of_isNumeral h hc hn
  have hinf := hword ['i', 'n', 'f'] (by decide)
  have hplus := hword ['+', 'i', 'n', 'f'] (by decide)
  have hminus := hword ['-', 'i', 'n', 'f'] (by decide)
  have hnan := hword ['n', 'a', 'n'] (by decide)
  simp only [named?]
  rw [if_neg, if_neg hminus, if_neg hnan]
  rintro (he | he)
  · exact hinf he
  · exact hplus he

theorem not_isBlank_of_isNumeral {cs : List Char} (h : IsNumeral cs) {c : Char} (hc : c ∈ cs) :
    isBlank c = false := by
  have hname := h.isNameChar hc
  simp only [isNameChar, Bool.and_eq_true, Bool.not_eq_true'] at hname
  exact hname.2

/-- A numeral denotes the value of a literal. -/
theorem ofText?_of_isNumeral (p : Nat) {cs : List Char} (h : IsNumeral cs) :
    ofText? p cs = (Literal.read? cs).map (Literal.value p) := by
  simp only [ofText?, trimChars_eq_self fun _ => not_isBlank_of_isNumeral h, named?_of_isNumeral h,
    Option.none_or]

/-- A numeral without a minus is worth a finite number that is not negative. -/
theorem ofText?_sign {p : Nat} {cs : List Char} {v : Number} (h : IsNumeral cs)
    (hm : cs.head? ≠ some '-') (hv : ofText? p cs = some v) :
    v.isFinite = true ∧ v.isNegative = false := by
  rw [ofText?_of_isNumeral p h] at hv
  obtain ⟨l, hl, rfl⟩ := Option.map_eq_some_iff.1 hv
  exact l.value_sign p (l.read?_negative hl (fun _ => not_isBlank_of_isNumeral h) hm)

end Number

end Reckoner
