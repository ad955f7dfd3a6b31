import Reckoner.Proofs.ParserSoundness

/-! Reading is local: a reader does not look beyond a bracket that closes more than was opened, and outside
of all brackets not beyond a semicolon either. Nor does it matter how much layout there is where there is
any. So readers find the same in two texts that agree, but for layout, up to such a character. -/

namespace Reckoner
open Text

def isOpener (c : Char) : Bool :=
  c == '(' || c == '\x7b'

def isCloser (c : Char) : Bool :=
  c == ')' || c == '\x7d'

/-- Two texts inside of so many brackets that agree but for the amounts of layout, as far as readers look:
to the end of both, with layout in front of it or without, or to a character behind which they go on as
given. -/
inductive Coupled (after after' : List Char) : Nat → List Char → List Char → Prop where
  | ended (k : Nat) {l l' : List Char} (hl : ∀ c, c ∈ l → isLayout c = true)
    (hl' : ∀ c, c ∈ l' → isLayout c = true) : Coupled after after' k l l'
  | stop {c : Char} (hc : isCloser c = true ∨ c = ';') :
    Coupled after after' 0 (c :: after) (c :: after')
  | layout {k : Nat} {l l' s s' : List Char} (hne : l ≠ []) (hne' : l' ≠ [])
    (hl : ∀ c, c ∈ l → isLayout c = true) (hl' : ∀ c, c ∈ l' → isLayout c = true)
    (h : Coupled after after' k s s') : Coupled after after' k (l ++ s) (l' ++ s')
  | opener {k : Nat} {c : Char} {s s' : List Char} (hc : isOpener c = true)
    (h : Coupled after after' (k + 1) s s') : Coupled after after' k (c :: s) (c :: s')
  | closer {k : Nat} {c : Char} {s s' : List Char} (hc : isCloser c = true)
    (h : Coupled after after' k s s') : Coupled after after' (k + 1) (c :: s) (c :: s')
  | plain {k : Nat} {c : Char} {s s' : List Char} (hl : isLayout c = false) (ho : isOpener c = false)
    (hc : isCloser c = false) (hk : c = ';' → 0 < k) (h : Coupled after after' k s s') :
    Coupled after after' k (c :: s) (c :: s')

section Characters
variable {c : Char}

theorem isMark_of_isOpener (h : isOpener c = true) : c ∈ ['(', '\x7b'] := by
  simpa [isOpener] using h

theorem isMark_of_isCloser (h : isCloser c = true) : c ∈ [')', '\x7d'] := by
  simpa [isCloser] using h

theorem not_isNameChar_of_isOpener (h : isOpener c = true) : isNameChar c = false :=
  forall_mem_of_all (P := fun c => isNameChar c = false) (by decide) c (isMark_of_isOpener h)

theorem not_isNameChar_of_isCloser (h : isCloser c = true) : isNameChar c = false :=
  forall_mem_of_all (P := fun c => isNameChar c = false) (by decide) c (isMark_of_isCloser h)

theorem not_isLayout_of_isOpener (h : isOpener c = true) : isLayout c = false :=
  forall_mem_of_all (P := fun c => isLayout c = false) (by decide) c (isMark_of_isOpener h)

theorem not_isLayout_of_isCloser (h : isCloser c = true) : isLayout c = false :=
  forall_mem_of_all (P := fun c => isLayout c = false) (by decide) c (isMark_of_isCloser h)

end Characters

/-- What may come next in coupled texts, behind layout. -/
inductive Coupled.Next (after after' : List Char) : Nat → Char → List Char → List Char → Prop where
  | stop {c : Char} (hc : isCloser c = true ∨ c = ';') : Next after after' 0 c after after'
  | opener {k : Nat} {c : Char} {s s' : List Char} (hc : isOpener c = true)
    (h : Coupled after after' (k + 1) s s') : Next after after' k c s s'
  | closer {k : Nat} {c : Char} {s s' : List Char} (hc : isCloser c = true)
    (h : Coupled after after' k s s') : Next after after' (k + 1) c s s'
  | plain {k : Nat} {c : Char} {s s' : List Char} (hl : isLayout c = false) (ho : isOpener c = false)
    (hc : isCloser c = false) (hk : c = ';' → 0 < k) (h : Coupled after after' k s s') :
    Next after after' k c s s'

namespace Coupled
variable {after after' s s' : List Char} {k : Nat}

theorem next (h : Coupled after after' k s s') :
    skipLayout s = [] ∧ skipLayout s' = [] ∨ ∃ c t t', skipLayout s = c :: t ∧ skipLayout s' = c :: t' ∧
      Next after after' k c t t' := by
  induction h with
  | ended k hl hl' => exact .inl ⟨skipLayout_eq_nil_iff.2 hl, skipLayout_eq_nil_iff.2 hl'⟩
  | @stop c hc =>
    have hl : isLayout c = false := by
      rcases hc with hc | rfl
      · exact not_isLayout_of_isCloser hc
      · decide
    exact .inr ⟨c, _, _, skipLayout_cons_of_neg hl _, skipLayout_cons_of_neg hl _, .stop hc⟩
  | layout _ _ hl hl' _ ih => rwa [skipLayout_append hl, skipLayout_append hl']
  | @opener k c s s' hc h =>
    have hl := not_isLayout_of_isOpener hc
    exact .inr ⟨c, s, s', skipLayout_cons_of_neg hl _, skipLayout_cons_of_neg hl _, .opener hc h⟩
  | @closer k c s s' hc h =>
    have hl := not_isLayout_of_isCloser hc
    exact .inr ⟨c, s, s', skipLayout_cons_of_neg hl _, skipLayout_cons_of_neg hl _, .closer hc h⟩
  | @plain k c s s' hl ho hc hk h =>
    exact .inr ⟨c, s, s', skipLayout_cons_of_neg hl _, skipLayout_cons_of_neg hl _, .plain hl ho hc hk h⟩

private theorem skip (h : Coupled after after' k s s') : Coupled after after' k (skipLayout s) (skipLayout s') := by
  rcases h.next with ⟨hs, hs'⟩ | ⟨c, t, t', hs, hs', hn⟩
  · rw [hs, hs']
    exact .ended k nofun nofun
  · rw [hs, hs']
    cases hn with
    | stop hc => exact .stop hc
    | opener hc h => exact .opener hc h
    | closer hc h => exact .closer hc h
    | plain hl ho hc hk h => exact .plain hl ho hc hk h

/-- Characters of a name may stand before coupled texts. -/
theorem append_run {w : List Char} (hw : ∀ c, c ∈ w → isNameChar c = true)
    (h : Coupled after after' k s s') : Coupled after after' k (w ++ s) (w ++ s') := by
  induction w with
  | nil => exact h
  | cons c w ih =>
    have hc := hw c List.mem_cons_self
    refine .plain (not_isLayout_of_isNameChar hc) ?_ ?_ ?_ (ih fun d hd => hw d (List.mem_cons_of_mem _ hd))
    · exact Bool.eq_false_iff.2 fun ho => Bool.eq_false_iff.1 (not_isNameChar_of_isOpener ho) hc
    · exact Bool.eq_false_iff.2 fun ho => Bool.eq_false_iff.1 (not_isNameChar_of_isCloser ho) hc
    · rintro rfl
      cases hc

theorem stops_cons {p : Char → Bool} {c : Char} (hc : p c = false) (s : List Char) : Stops p (c :: s) := by
  rintro _ ⟨⟩
  exact hc

private theorem stops_layout {l : List Char} (hne : l ≠ []) (hl : ∀ c, c ∈ l → isLayout c = true) (s : List Char) :
    Stops isNameChar (l ++ s) := by
  cases l with
  | nil => exact absurd rfl hne
  | cons c l => exact stops_cons (not_isNameChar_of_isLayout (hl c List.mem_cons_self)) _

private theorem stops_of_layout {l : List Char} (hl : ∀ c, c ∈ l → isLayout c = true) : Stops isNameChar l := by
  cases l with
  | nil => nofun
  | cons c l => exact stops_cons (not_isNameChar_of_isLayout (hl c List.mem_cons_self)) _

/-- Coupled texts start with the same characters of a name, and are coupled behind them. -/
theorem exists_run (h : Coupled after after' k s s') :
    ∃ w r r', s = w ++ r ∧ s' = w ++ r' ∧ (∀ c, c ∈ w → isNameChar c = true) ∧ Stops isNameChar r ∧
      Stops isNameChar r' ∧ Coupled after after' k r r' := by
  induction h with
  | @ended k l l' hl hl' =>
    exact ⟨[], l, l', rfl, rfl, nofun, stops_of_layout hl, stops_of_layout hl', .ended k hl hl'⟩
  | @stop c hc =>
    have hn : isNameChar c = false := by
      rcases hc with hc | rfl
      · exact not_isNameChar_of_isCloser hc
      · decide
    exact ⟨[], _, _, rfl, rfl, nofun, stops_cons hn _, stops_cons hn _, .stop hc⟩
  | layout hne hne' hl hl' h =>
    exact ⟨[], _, _, rfl, rfl, nofun, stops_layout hne hl _, stops_layout hne' hl' _,
      .layout hne hne' hl hl' h⟩
  | opener hc h =>
    have hn := not_isNameChar_of_isOpener hc
    exact ⟨[], _, _, rfl, rfl, nofun, stops_cons hn _, stops_cons hn _, .opener hc h⟩
  | closer hc h =>
    have hn := not_isNameChar_of_isCloser hc
    exact ⟨[], _, _, rfl, rfl, nofun, stops_cons hn _, stops_cons hn _, .closer hc h⟩
  | @plain k c s s' hl ho hc hk h ih =>
    cases hn : isNameChar c with
    | true =>
      obtain ⟨w, r, r', rfl, rfl, hw, hr⟩ := ih
      exact ⟨c :: w, r, r', rfl, rfl, List.forall_mem_cons.2 ⟨hn, hw⟩, hr⟩
    | false => exact ⟨[], _, _, rfl, rfl, nofun, stops_cons hn _, stops_cons hn _, .plain hl ho hc hk h⟩

end Coupled

section Runs
variable {w r : List Char}

theorem takeWhile_append_stops {p : Char → Bool} (h : Stops p r) (w : List Char) :
    (w ++ r).takeWhile p = w.takeWhile p := by
  induction w with
  | nil =>
    cases r with
    | nil => rfl
    | cons c r => simp [h c rfl]
  | cons c w ih => simp only [List.cons_append, List.takeWhile_cons, ih]

theorem dropWhile_append_stops {p : Char → Bool} (h : Stops p r) (w : List Char) :
    (w ++ r).dropWhile p = w.dropWhile p ++ r := by
  induction w with
  | nil =>
    cases r with
    | nil => rfl
    | cons c r => simp [h c rfl]
  | cons c w ih =>
    simp only [List.cons_append, List.dropWhile_cons, ih]
    split <;> rfl

/-- What a name takes from a text lies in the characters of names that the text starts with. -/
theorem splitName?_run (hr : Stops isNameChar r) (w : List Char) :
    splitName? (w ++ r) = (splitName? w).map fun (cs, rest) => (cs, rest ++ r) := by
  cases w with
  | nil =>
    cases r with
    | nil => rfl
    | cons c r => simp [splitName?, isNameStart, hr c rfl]
  | cons c w =>
    rw [List.cons_append, splitName?, splitName?, takeWhile_append_stops hr, dropWhile_append_stops hr]
    split <;> rfl

theorem takeSign_run (hr : Stops isNameChar r) (w : List Char) :
    takeSign (w ++ r) = ((takeSign w).1, (takeSign w).2 ++ r) := by
  cases w with
  | nil =>
    cases r with
    | nil => rfl
    | cons c r =>
      have hc := hr c rfl
      rw [List.nil_append, takeSign, if_neg]
      · rfl
      · rintro (rfl | rfl) <;> cases hc
  | cons c w =>
    rw [List.cons_append, takeSign, takeSign]
    split <;> rfl

theorem splitDigits_run (hr : Stops isNameChar r) (w : List Char) :
    splitDigits (w ++ r) = ((splitDigits w).1, (splitDigits w).2 ++ r) := by
  have hd := (endsNumeral_of_stops hr).stops
  rw [splitDigits, takeWhile_append_stops hd, dropWhile_append_stops hd]
  rfl

private theorem splitMantissa?_run (hr : Stops isNameChar r) (w : List Char) :
    splitMantissa? (w ++ r) = (splitMantissa? w).map fun (cs, rest) => (cs, rest ++ r) := by
  have hpoint : ∀ s, r ≠ '.' :: s := by
    rintro s rfl
    cases hr '.' rfl
  rw [splitMantissa?, splitMantissa?, splitDigits_run hr]
  rcases splitDigits w with ⟨whole, _ | ⟨c, rest⟩⟩
  · cases whole <;> grind
  · by_cases hc : c = '.'
    · subst hc
      cases whole with
      | nil =>
        simp only [List.cons_append, splitDigits_run hr]
        rcases splitDigits rest with ⟨_ | ⟨d, fraction⟩, rest⟩ <;> rfl
      | cons d whole =>
        simp only [List.cons_append, splitDigits_run hr]
        rfl
    · cases whole <;> grind

private theorem splitExponent_run (hr : Stops isNameChar r) (w : List Char) :
    splitExponent (w ++ r) = ((splitExponent w).1, (splitExponent w).2 ++ r) := by
  cases w with
  | nil =>
    cases r with
    | nil => rfl
    | cons c r =>
      have hc := hr c rfl
      rw [List.nil_append, splitExponent, if_neg]
      · rfl
      · rintro (rfl | rfl) <;> cases hc
  | cons mark w =>
    simp only [List.cons_append, splitExponent, takeSign_run hr, splitDigits_run hr]
    split
    · rcases splitDigits (takeSign w).2 with ⟨_ | ⟨d, ds⟩, rest⟩ <;> rfl
    · rfl

theorem splitNumeral?_run (hr : Stops isNameChar r) (w : List Char) :
    splitNumeral? (w ++ r) = (splitNumeral? w).map fun (cs, rest) => (cs, rest ++ r) := by
  rw [splitNumeral?_eq, splitNumeral?_eq, takeSign_run hr, splitMantissa?_run hr, Option.map_map,
    Option.map_map]
  congr 1
  funext ⟨mantissa, rest⟩
  simp only [Function.comp_apply, splitExponent_run hr]

end Runs

/-- Readings of two texts: the same value with coupled rests, or no value for the same kind of reason. -/
inductive Reading.Alike {α : Type} (after after' : List Char) (k : Nat) : Reading α → Reading α → Prop where
  | matched (a : α) {t t' : List Char} (h : Coupled after after' k t t') :
    Alike after after' k (.matched a t) (.matched a t')
  | mismatched (m m' : Mismatch) : Alike after after' k (.mismatched m) (.mismatched m')
  | abandoned (a : Abandonment) : Alike after after' k (.abandoned a) (.abandoned a)

namespace Reading.Alike
variable {α : Type} {after after' : List Char} {k : Nat} {x y : Reading α}

theorem of_matched (h : x.Alike after after' k y) {a : α} {t : List Char} (hx : x = .matched a t) :
    ∃ t', y = .matched a t' ∧ Coupled after after' k t t' := by
  subst hx
  cases h with
  | matched _ ht => exact ⟨_, rfl, ht⟩

theorem of_mismatched (h : x.Alike after after' k y) {m : Mismatch} (hx : x = .mismatched m) :
    ∃ m', y = .mismatched m' := by
  subst hx
  cases h
  exact ⟨_, rfl⟩

theorem of_abandoned (h : x.Alike after after' k y) {a : Abandonment} (hx : x = .abandoned a) :
    y = .abandoned a := by
  subst hx
  cases h
  rfl

end Reading.Alike

namespace Reader
variable {α β : Type} {r : Reader α} {j k l : Nat}

/-- The reader reads coupled texts alike, from inside of so many brackets to inside of so many. -/
def Local (k j : Nat) (r : Reader α) : Prop :=
  ∀ ⦃after after' s s' : List Char⦄, Coupled after after' k s s' →
    Reading.Alike after after' j (r s) (r s')

theorem local_pure (a : α) : Local k k (pure a : Reader α) :=
  fun _ _ _ _ h => .matched a h

theorem alike_bind {r' : Reader α} {f : α → Reader β} {after after' s s' : List Char}
    (hr : (r s).Alike after after' j (r' s')) (hf : ∀ a, (f a).Local j l) :
    ((r >>= f) s).Alike after after' l ((r' >>= f) s') := by
  cases hx : r s with
  | matched a t =>
    obtain ⟨t', hy, ht⟩ := hr.of_matched hx
    rw [bind_of_matched hx, bind_of_matched hy]
    exact hf a ht
  | mismatched m =>
    obtain ⟨m', hy⟩ := hr.of_mismatched hx
    rw [bind_of_mismatched hx, bind_of_mismatched hy]
    exact .mismatched m m'
  | abandoned a =>
    rw [bind_of_abandoned hx, bind_of_abandoned (hr.of_abandoned hx)]
    exact .abandoned a

theorem Local.bind {f : α → Reader β} (hr : r.Local k j) (hf : ∀ a, (f a).Local j l) :
    Local k l (r >>= f) :=
  fun _ _ _ _ h => alike_bind (hr h) hf

theorem Local.either {first second : Reader α} (h : first.Local k j) (h' : second.Local k j) :
    (either first second).Local k j := by
  intro after after' s s' hs
  have hfirst := h hs
  have hsecond := h' hs
  simp only [Reader.either]
  generalize first s = x at hfirst ⊢
  generalize first s' = y at hfirst ⊢
  cases hfirst with
  | matched a ht => exact .matched a ht
  | abandoned a => exact .abandoned a
  | mismatched m m' =>
    generalize second s = x at hsecond ⊢
    generalize second s' = y at hsecond ⊢
    cases hsecond with
    | matched a ht => exact .matched a ht
    | abandoned a => exact .abandoned a
    | mismatched n n' => exact .mismatched _ _

theorem Local.orExpect (h : r.Local k j) (e : Expectation) : (r.orExpect e).Local k j := by
  intro after after' s s' hs
  have hr := h hs
  simp only [Reader.orExpect]
  generalize r s = x at hr ⊢
  generalize r s' = y at hr ⊢
  cases hr with
  | matched a ht => exact .matched a ht
  | mismatched m m' => exact .mismatched _ _
  | abandoned a => exact .abandoned a

theorem Local.optional (h : r.Local k k) : (optional r).Local k k := by
  intro after after' s s' hs
  have hr := h hs
  simp only [Reader.optional]
  generalize r s = x at hr ⊢
  generalize r s' = y at hr ⊢
  cases hr with
  | matched a ht => exact .matched _ ht
  | mismatched m m' => exact .matched none hs
  | abandoned a => exact .abandoned a

/-- Each match takes at least one character. -/
def Consuming (r : Reader α) : Prop :=
  ∀ ⦃s t : List Char⦄ ⦃a : α⦄, r s = .matched a t → t.length < s.length

theorem manyUpTo_of_mismatched {s : List Char} {m : Mismatch} (h : r s = .mismatched m) (n : Nat) :
    manyUpTo r n s = .matched [] s := by
  cases n with
  | zero => rfl
  | succ n => simp only [manyUpTo, h]

private theorem Local.manyUpTo (h : r.Local k k) (hr : r.Consuming) {after after' s s' : List Char} {n n' : Nat}
    (hn : s.length < n) (hn' : s'.length < n') (hs : Coupled after after' k s s') :
    Reading.Alike after after' k (manyUpTo r n s) (manyUpTo r n' s') := by
  induction n generalizing s s' n' with
  | zero => omega
  | succ n ih =>
    obtain ⟨n', rfl⟩ := Nat.exists_eq_add_one_of_ne_zero (Nat.ne_zero_of_lt hn')
    cases hx : r s with
    | mismatched m =>
      obtain ⟨m', hy⟩ := (h hs).of_mismatched hx
      rw [manyUpTo_of_mismatched hx, manyUpTo_of_mismatched hy]
      exact .matched [] hs
    | abandoned a =>
      have hy := (h hs).of_abandoned hx
      simp only [Reader.manyUpTo, hx, hy]
      exact .abandoned a
    | matched a t =>
      obtain ⟨t', hy, ht⟩ := (h hs).of_matched hx
      have hlt := hr hx
      have hlt' := hr hy
      simp only [Reader.manyUpTo, hx, hy]
      exact alike_bind (ih (by omega) (by omega) ht) fun as => local_pure _

theorem Local.many (h : r.Local k k) (hr : r.Consuming) : (many r).Local k k :=
  fun _ _ _ _ hs => h.manyUpTo hr (Nat.lt_succ_self _) (Nat.lt_succ_self _) hs

theorem local_token {c : Char}
    (h : ∀ {after after' t t' : List Char}, Coupled.Next after after' k c t t' → Coupled after after' j t t') :
    Local k j (token c) := by
  intro after after' s s' hs
  rcases hs.next with ⟨hnil, hnil'⟩ | ⟨d, t, t', hd, hd', hn⟩
  · simp only [token, hnil, hnil']
    exact .mismatched _ _
  · simp only [token, hd, hd']
    split
    · rename_i hdc
      exact .matched () (h (hdc ▸ hn))
    · exact .mismatched _ _

theorem local_opener (c : Char) (h : isOpener c = true ∧ isCloser c = false ∧ c ≠ ';') :
    Local k (k + 1) (token c) := by
  obtain ⟨ho, hc, hs⟩ := h
  refine local_token fun hn => ?_
  cases hn with
  | opener _ h => exact h
  | stop h => simp [hc, hs] at h
  | closer h => simp [hc] at h
  | plain _ h => simp [ho] at h

theorem local_closer (c : Char) (h : isOpener c = false ∧ isCloser c = true) :
    Local (k + 1) k (token c) := by
  obtain ⟨ho, hc⟩ := h
  refine local_token fun hn => ?_
  cases hn with
  | closer _ h => exact h
  | opener h => simp [ho] at h
  | plain _ _ h => simp [hc] at h

theorem local_semicolon : Local (k + 1) (k + 1) (token ';') := by
  refine local_token fun hn => ?_
  cases hn with
  | plain _ _ _ _ h => exact h
  | opener h => cases h
  | closer h => cases h

/-- A character that is neither a bracket nor a semicolon does not leave or enter brackets. -/
theorem coupled_of_next {c : Char} (h : isOpener c = false ∧ isCloser c = false ∧ c ≠ ';')
    {after after' t t' : List Char} (hn : Coupled.Next after after' k c t t') :
    Coupled after after' k t t' := by
  obtain ⟨ho, hc, hs⟩ := h
  cases hn with
  | plain _ _ _ _ h => exact h
  | stop h => simp [hc, hs] at h
  | opener h => simp [ho] at h
  | closer h => simp [hc] at h

theorem local_sign (c : Char) (h : isOpener c = false ∧ isCloser c = false ∧ c ≠ ';') :
    Local k k (token c) :=
  local_token fun hn => coupled_of_next h hn

private theorem local_oneOf {cs : List Char} (hcs : ∀ c, c ∈ cs → c ∈ operatorChars) : Local k k (oneOf cs) := by
  intro after after' s s' h
  rcases h.next with ⟨hnil, hnil'⟩ | ⟨d, t, t', hd, hd', hn⟩
  · simp only [oneOf, hnil, hnil']
    exact .mismatched _ _
  · simp only [oneOf, hd, hd']
    split
    · rename_i hdc
      have hsign (c : Char) (hc : c ∈ operatorChars) :
          isOpener c = false ∧ isCloser c = false ∧ c ≠ ';' :=
        forall_mem_of_all (P := fun c => isOpener c = false ∧ isCloser c = false ∧ c ≠ ';') (by decide) c hc
      exact .matched d (coupled_of_next (hsign d (hcs d hdc)) hn)
    · exact .mismatched _ _

theorem local_split {splitting : List Char → Option (List Char × List Char)} (e : Expectation)
    (hrun : ∀ {r : List Char}, Stops isNameChar r → ∀ w,
      splitting (w ++ r) = (splitting w).map fun (cs, rest) => (cs, rest ++ r))
    (hsound : ∀ {w cs rest : List Char}, splitting w = some (cs, rest) → w = cs ++ rest) :
    Local k k (split splitting e) := by
  intro after after' s s' hs
  obtain ⟨w, r, r', hw, hw', hname, hstop, hstop', hr⟩ := hs.skip.exists_run
  simp only [split, hw, hw', hrun hstop, hrun hstop']
  cases hsplit : splitting w with
  | none => exact .mismatched _ _
  | some x =>
    obtain ⟨cs, rest⟩ := x
    refine .matched _ (hr.append_run fun c hc => hname c ?_)
    rw [hsound hsplit]
    exact List.mem_append_right cs hc

theorem local_name : Local k k name :=
  local_split _ (fun hr w => splitName?_run hr w) fun h => (splitName?_sound h).1

private theorem local_numeral : Local k k numeral :=
  local_split _ (fun hr w => splitNumeral?_run hr w) fun h => (splitNumeral?_sound h).1

theorem length_skipLayout_le (s : List Char) : (skipLayout s).length ≤ s.length :=
  (List.dropWhile_suffix isLayout).length_le

theorem consuming_token (c : Char) : (token c).Consuming := by
  intro s t a h
  have hle := length_skipLayout_le s
  rw [token] at h
  split at h
  · cases h
  · rename_i d rest hd
    rw [hd] at hle
    split at h
    · cases h
      exact hle
    · cases h

private theorem consuming_oneOf (cs : List Char) : (oneOf cs).Consuming := by
  intro s t a h
  have hle := length_skipLayout_le s
  rw [oneOf] at h
  split at h
  · cases h
  · rename_i d rest hd
    rw [hd] at hle
    split at h
    · cases h
      exact hle
    · cases h

theorem Sound.length_le {P : List Token → α → Prop} (h : r.Sound P) {s t : List Char} {a : α}
    (hr : r s = .matched a t) : t.length ≤ s.length := by
  obtain ⟨ts, -, hc⟩ := h s a t hr
  exact hc.length_le

theorem Consuming.bind {f : α → Reader β} (hr : r.Consuming)
    (hf : ∀ a {s t : List Char} {b : β}, f a s = .matched b t → t.length ≤ s.length) :
    Consuming (r >>= f) := by
  intro s t b h
  obtain ⟨a, u, ha, hb⟩ := bind_eq_matched.1 h
  exact Nat.lt_of_le_of_lt (hf a hb) (hr ha)

theorem Local.commaSeparated {other : Reader α} {P : List Token → α → Prop} (h : r.Local k k)
    (h' : other.Local k k) (hs : other.Sound P) : (commaSeparated r other).Local k k := by
  have hitem : Consuming (do token ','; other) := (consuming_token ',').bind fun _ => hs.length_le
  refine h.optional.bind fun a => ?_
  cases a with
  | none => exact local_pure []
  | some a =>
    have hcomma : Local k k (do token ','; other) :=
      (local_sign ',' (by decide)).bind fun _ => h'
    exact (hcomma.many hitem).bind fun as => local_pure _

end Reader

namespace Grammar
open Reader
variable {p k : Nat} {operand item : Nat → Reader Expr}

/-- Operands that are read locally, and only from tokens. -/
structure LocalOperands (p : Nat) (operand : Nat → Reader Expr) : Prop where
  reads : ∀ j k, (operand j).Local k k
  sound : ∀ j, SoundAt p .power (operand j)

theorem LocalOperands.deeper (h : LocalOperands p operand) (calls : Nat) :
    LocalOperands p (deeper operand calls) :=
  ⟨fun j k => h.reads (calls + j) k, sound_deeper h.sound calls⟩

theorem local_chainOf {ops : List Char} {level : Level} (hops : ∀ c, c ∈ ops → c ∈ operatorChars)
    (h : ∀ j, (item j).Local k k) (hs : ∀ j, SoundAt p level (item j)) : (chainOf ops item).Local k k := by
  have hpair : Local k k (do return (← oneOf ops, ← item 7)) :=
    (local_oneOf hops).bind fun op => (h 7).bind fun e => local_pure _
  have hconsuming : Consuming (do return (← oneOf ops, ← item 7)) := by
    refine (consuming_oneOf ops).bind fun op {s t x} hx => ?_
    obtain ⟨e, u, he, hp⟩ := bind_eq_matched.1 hx
    cases hp
    exact (hs 7).length_le he
  exact (h 0).bind fun first => (hpair.many hconsuming).bind fun others => local_pure _

private theorem local_termOf (h : LocalOperands p operand) : (termOf operand).Local k k :=
  local_chainOf (forall_mem_of_all (by decide)) (fun j => h.reads j k) h.sound

theorem local_expressionOf (h : LocalOperands p operand) : (expressionOf operand).Local k k :=
  local_chainOf (forall_mem_of_all (by decide)) (fun j => local_termOf (h.deeper j))
    fun j => sound_termOf (h.deeper j).sound

private theorem local_definitionOf (h : LocalOperands p operand) : (definitionOf operand).Local k k := by
  refine local_name.bind fun f => (local_opener '(' (by decide)).bind fun _ => ?_
  refine (local_name.commaSeparated local_name sound_name).bind fun params => ?_
  refine (local_closer ')' (by decide)).bind fun _ => ?_
  refine (local_sign '=' (by decide)).bind fun _ => ?_
  exact (local_expressionOf h).bind fun e => local_pure _

private theorem local_assignmentOf (h : LocalOperands p operand) : (assignmentOf operand).Local k k := by
  refine local_name.bind fun target => ?_
  refine (local_sign '=' (by decide)).bind fun _ => ?_
  exact (local_expressionOf h).bind fun e => local_pure _

theorem local_clauseOf (h : LocalOperands p operand) : (clauseOf operand).Local k k :=
  (((local_definitionOf h).either (local_assignmentOf h)).either
    ((local_expressionOf h).bind fun _ => local_pure _)).orExpect _

private theorem local_blockBodyOf (h : LocalOperands p operand)
    {after after' s s' : List Char} {n n' : Nat} (hn : s.length < n) (hn' : s'.length < n')
    (hc : Coupled after after' (k + 1) s s') :
    Reading.Alike after after' (k + 1) (blockBodyOf operand n s) (blockBodyOf operand n' s') := by
  induction n generalizing s s' n' with
  | zero => omega
  | succ n ih =>
    cases n' with
    | zero => omega
    | succ n' =>
      cases hx : clauseOf operand s with
      | mismatched m =>
        obtain ⟨m', hy⟩ := (local_clauseOf h hc).of_mismatched hx
        simp only [blockBodyOf, hx, hy]
        exact .mismatched _ _
      | abandoned a =>
        simp only [blockBodyOf, hx, (local_clauseOf h hc).of_abandoned hx]
        exact .abandoned a
      | matched clause t =>
        obtain ⟨t', hy, ht⟩ := (local_clauseOf h hc).of_matched hx
        have hle := (sound_clauseOf h.sound).length_le hx
        have hle' := (sound_clauseOf h.sound).length_le hy
        have hfinal : Reading.Alike after after' (k + 1)
            ((expressionOf operand >>= fun e => pure (([] : List Statement), e)) s)
            ((expressionOf operand >>= fun e => pure ([], e)) s') :=
          alike_bind (local_expressionOf h hc) fun _ => local_pure _
        simp only [blockBodyOf, hx, hy]
        cases hu : token ';' t with
        | mismatched m =>
          obtain ⟨m', hu'⟩ := (local_semicolon ht).of_mismatched hu
          rw [hu']
          cases clause with
          | expression e => exact .matched _ ht
          | _ => exact hfinal
        | abandoned a =>
          rw [(local_semicolon ht).of_abandoned hu]
          cases clause with
          | expression e => exact .matched _ ht
          | _ => exact hfinal
        | matched _ u =>
          obtain ⟨u', hu', hcu⟩ := (local_semicolon ht).of_matched hu
          have hlt := consuming_token ';' hu
          have hlt' := consuming_token ';' hu'
          rw [hu']
          exact alike_bind (ih (by omega) (by omega) hcu) fun x => local_pure _

private theorem local_blockOf (h : LocalOperands p operand) :
    (blockOf operand).Local k k := by
  refine (local_opener '\x7b' (by decide)).bind fun _ => ?_
  have hbody : Local (k + 1) (k + 1) fun s => blockBodyOf operand (s.length + 1) s :=
    fun _ _ _ _ hc => local_blockBodyOf h (Nat.lt_succ_self _) (Nat.lt_succ_self _) hc
  refine hbody.bind fun x => ?_
  exact (local_closer '\x7d' (by decide)).bind fun _ => local_pure _

private theorem local_parenthesizedOf (h : LocalOperands p operand) :
    (parenthesizedOf operand).Local k k := by
  refine (local_opener '(' (by decide)).bind fun _ => ?_
  refine (local_expressionOf h).bind fun e => ?_
  exact (local_closer ')' (by decide)).bind fun _ => local_pure _

private theorem local_callOf (h : LocalOperands p operand) :
    (callOf operand).Local k k := by
  refine local_name.bind fun f => (local_opener '(' (by decide)).bind fun _ => ?_
  have hother := local_expressionOf (k := k + 1) (h.deeper 7)
  refine ((local_expressionOf h).commaSeparated hother (sound_expressionOf (h.deeper 7).sound)).bind fun args => ?_
  exact (local_closer ')' (by decide)).bind fun _ => local_pure _

private theorem local_number : (number p).Local k k := by
  refine local_numeral.bind fun text {after after' s s'} h => ?_
  cases Number.ofText? p text.toList with
  | some n => exact .matched _ h
  | none => exact .abandoned _

private theorem local_symbol : symbol.Local k k :=
  local_name.bind fun _ => local_pure _

variable {below : Nat → Reader Expr}

private theorem local_primaryOf (h : LocalOperands p below) : (primaryOf p below).Local k k :=
  ((((local_parenthesizedOf (h.deeper 25)).either (local_blockOf (h.deeper 45))).either
    (local_callOf (h.deeper 34))).either local_number).either local_symbol

private theorem local_operandOf (h : LocalOperands p below) : (operandOf p below).Local k k := by
  have hexponent : Local k k (do token '^'; below 15) :=
    (local_sign '^' (by decide)).bind fun _ => h.reads 15 k
  have hnegation : (negationOf (below 9)).Local k k :=
    (local_sign '-' (by decide)).bind fun _ => (h.reads 9 k).bind fun e => local_pure _
  refine (hnegation.either ?_).orExpect _
  refine (local_primaryOf h).bind fun base => hexponent.optional.bind fun exponent => ?_
  cases exponent <;> exact local_pure _

theorem localOperands_operandWithin (p n : Nat) : LocalOperands p (operandWithin p n) := by
  refine ⟨?_, sound_operandWithin n⟩
  induction n with
  | zero => exact fun _ _ _ _ _ _ _ => .abandoned _
  | succ n ih =>
    intro j k
    cases j with
    | zero => exact local_operandOf ⟨ih, sound_operandWithin n⟩
    | succ j => exact ih j k

/-- Where reading a statement is given up does not depend on what comes behind it. -/
theorem statement_abandoned_of_coupled {n : Nat} {after after' s s' : List Char} {a : Abandonment}
    (h : Coupled after after' 0 s s') (hs : statement p n s = .abandoned a) : statement p n s' = .abandoned a := by
  have hclause := local_clauseOf (localOperands_operandWithin p n) h
  rcases bind_eq_abandoned.1 hs with hc | ⟨c, t, -, hrest⟩
  · exact bind_of_abandoned (hclause.of_abandoned hc)
  · rcases bind_eq_abandoned.1 hrest with ht | ⟨_, u, -, hp⟩
    · exact absurd ht (token_ne_abandoned ';' t a)
    · cases hp

/-- A statement outside of all brackets is read up to its semicolon, whatever comes behind. -/
theorem statement_of_coupled {n : Nat} {after after' s s' rest : List Char} {clause : Statement}
    (h : Coupled after after' 0 s s') (hs : statement p n s = .matched clause rest) :
    rest = after ∧ statement p n s' = .matched clause after' := by
  obtain ⟨c, t, hc, hrest⟩ := bind_eq_matched.1 hs
  obtain ⟨_, u, hu, hp⟩ := bind_eq_matched.1 hrest
  cases hp
  obtain ⟨t', hc', ht⟩ := (local_clauseOf (localOperands_operandWithin p n) h).of_matched hc
  have hsemicolon : rest = after ∧ token ';' t' = .matched () after' := by
    rcases ht.next with ⟨hnil, -⟩ | ⟨d, v, v', hd, hd', hn⟩
    · simp [token, hnil] at hu
    · simp only [token, hd] at hu
      split at hu
      · rename_i hdc
        subst hdc
        cases hu
        cases hn with
        | stop => exact ⟨rfl, by simp [token, hd']⟩
        | opener h => cases h
        | plain _ _ _ hk => exact absurd (hk rfl) (by decide)
      · cases hu
  exact ⟨hsemicolon.1, bind_eq_matched.2 ⟨clause, t', hc', bind_eq_matched.2 ⟨(), after', hsemicolon.2, rfl⟩⟩⟩

end Grammar

end Reckoner
