import Mathlib.Logic.Relation
import Reckoner.Proofs.DecimalDigits

/-! The walk of a carry through a list of digits. One is added at the last place; as long as the digit at a place
is ten, it becomes zero, and the place to its left takes the carry, or a new digit in front of the first place.
The walk keeps to the places of the list, its digits write the same number all the way, and it ends with the
digits of the sum. -/

namespace Reckoner.Decimal

section Nines
variable {ds : List Int}

private theorem carry_nines_append (n : Nat) (ds : List Int) :
    carry (List.replicate n 9 ++ ds) = List.replicate n 0 ++ carry ds := by
  induction n with
  | zero => rfl
  | succ n ih => simpa [List.replicate_succ, carry] using ih

theorem addOne?_append_nines (front : List Int) (d : Int) (n : Nat) :
    addOne? (front ++ d :: List.replicate n 9) =
      some ((carry (d :: front.reverse)).reverse ++ List.replicate n 0) := by
  simp [addOne?, carry_nines_append]

/-- Nines alone become a one and zeros. -/
theorem addOne?_of_nines (hne : ds ≠ []) (hnines : ∀ d, d ∈ ds → d = 9) :
    addOne? ds = some (1 :: List.replicate ds.length 0) := by
  obtain ⟨n, hn⟩ := Nat.exists_eq_succ_of_ne_zero (List.length_pos_iff.2 hne).ne'
  have hds : ds = [] ++ 9 :: List.replicate n 9 := by
    rw [List.eq_replicate_iff.2 ⟨hn, hnines⟩]
    rfl
  rw [hds, addOne?_append_nines]
  simp [carry, List.replicate_succ]

/-- Digits that are not all nines become no more and no fewer. -/
theorem length_addOne?_of_ne_nine {es : List Int} (h : addOne? ds = some es) (hother : ∃ d, d ∈ ds ∧ d ≠ 9) :
    es.length = ds.length := by
  obtain ⟨d, hd, hne⟩ := hother
  have hnot : ¬ ds.length < es.length := fun hlt => hne ((lt_length_addOne?_iff h).1 hlt d hd)
  rw [addOne?, if_neg (by simpa using List.ne_nil_of_mem hd)] at h
  cases h
  have hlength := length_carry ds.reverse
  simp only [List.length_reverse] at hlength hnot ⊢
  omega

end Nines

/-- Digits, one of which may be ten, and the place of that one. -/
structure CarryWalk where
  digits : List Int
  place : Int

namespace CarryWalk

/-- What the digit at the place leads to. -/
inductive Stage where
  | ended (ds : List Int)
  | goesOn (w : CarryWalk)
  /-- The list has no such place. -/
  | astray

def next (w : CarryWalk) : Stage :=
  if w.place < 0 then .astray
  else
    match w.digits[w.place.toNat]? with
    | none => .astray
    | some d =>
      if d = 10 then
        let cleared := w.digits.set w.place.toNat 0
        if w.place = 0 then .ended (1 :: cleared)
        else .goesOn ⟨cleared.modify (w.place - 1).toNat (· + 1), w.place - 1⟩
      else .ended w.digits

/-- One is added at the last place. -/
def start (ds : List Int) : CarryWalk :=
  ⟨ds.modify (ds.length - 1) (· + 1), ds.length - 1⟩

/-- A walk comes to another by any number of steps. -/
def Reaches : CarryWalk → CarryWalk → Prop :=
  Relation.ReflTransGen fun w v => w.next = .goesOn v

/-- Digits to which one was added behind the front: nines have become zeros there, and the place is that of the
digit in front of them. -/
def behind (front : List Int) (d : Int) (n : Nat) : CarryWalk :=
  ⟨front ++ (d + 1) :: List.replicate n 0, front.length⟩

variable {ds es : List Int} {w v : CarryWalk}

theorem modify_append_cons (front : List Int) (d : Int) (rest : List Int) :
    (front ++ d :: rest).modify front.length (· + 1) = front ++ (d + 1) :: rest := by
  rw [List.modify_eq_set_getElem?]
  simp

private theorem start_concat (front : List Int) (d : Int) : start (front ++ [d]) = behind front d 0 := by
  simp [start, behind, modify_append_cons]

/-- A digit other than nine takes the carry. -/
theorem next_behind_of_ne {d : Int} (hd : d ≠ 9) (front : List Int) (n : Nat) :
    (behind front d n).next = .ended (front ++ (d + 1) :: List.replicate n 0) := by
  have hten : d + 1 ≠ 10 := by omega
  simp [next, behind, hten]

/-- A nine at the first place leaves the carry to a new digit. -/
theorem next_behind_nil (n : Nat) : (behind [] 9 n).next = .ended (1 :: List.replicate (n + 1) 0) := by
  simp [next, behind, List.replicate_succ]

/-- A nine at a later place leaves the carry to the place on its left. -/
theorem next_behind_concat (front : List Int) (d : Int) (n : Nat) :
    (behind (front ++ [d]) 9 n).next = .goesOn (behind front d (n + 1)) := by
  have hpos : ¬ ((front.length : Int) + 1 < 0) := by omega
  have hne : (front.length : Int) + 1 ≠ 0 := by omega
  simp [next, behind, hpos, hne, List.replicate_succ, modify_append_cons]

/-- A walk that started on the digits and has come to a place of theirs: behind it were nines. -/
def Follows (ds : List Int) (w : CarryWalk) : Prop :=
  ∃ front d n, ds = front ++ d :: List.replicate n 9 ∧ w = behind front d n

private theorem follows_start (hne : ds ≠ []) : Follows ds (start ds) := by
  obtain rfl | ⟨front, d, rfl⟩ := List.eq_nil_or_concat' ds
  · exact absurd rfl hne
  · exact ⟨front, d, 0, rfl, start_concat front d⟩

/-- A step of a walk goes on with it or ends it with the digits of the sum. -/
theorem Follows.next (h : Follows ds w) :
    (∃ v, w.next = .goesOn v ∧ Follows ds v) ∨ ∃ es, w.next = .ended es ∧ addOne? ds = some es := by
  obtain ⟨front, d, n, rfl, rfl⟩ := h
  by_cases hd : d = 9
  · subst hd
    obtain rfl | ⟨front, e, rfl⟩ := List.eq_nil_or_concat' front
    · refine .inr ⟨_, next_behind_nil n, ?_⟩
      rw [addOne?_append_nines]
      simp [carry, List.replicate_succ]
    · refine .inl ⟨_, next_behind_concat front e n, front, e, n + 1, ?_, rfl⟩
      simp [List.replicate_succ]
  · have hten : d + 1 ≠ 10 := by omega
    refine .inr ⟨_, next_behind_of_ne hd front n, ?_⟩
    rw [addOne?_append_nines]
    simp [carry, hten]

theorem Follows.reaches (h : Follows ds w) (hv : w.Reaches v) : Follows ds v := by
  induction hv with
  | refl => exact h
  | @tail u v _ hstep ih =>
    obtain ⟨v', hnext, hv'⟩ | ⟨es, hnext, -⟩ := ih.next <;> rw [hstep] at hnext <;> cases hnext
    exact hv'

private theorem Follows.place_bounds (h : Follows ds w) : 0 ≤ w.place ∧ w.place < w.digits.length := by
  obtain ⟨front, d, n, -, rfl⟩ := h
  simp only [behind, List.length_append, List.length_cons, List.length_replicate]
  omega

private theorem value_nines (n : Nat) : value (List.replicate n 9) = 10 ^ n - 1 := by
  induction n with
  | zero => rfl
  | succ n ih =>
    rw [List.replicate_succ, value_cons, ih, List.length_replicate, pow_succ]
    ring

/-- The ten that is still to be carried on counts for the place to its left. -/
theorem Follows.value_eq (h : Follows ds w) : value w.digits = value ds + 1 := by
  obtain ⟨front, d, n, rfl, rfl⟩ := h
  simp only [behind, value_append, value_cons, value_zeros, value_nines, List.length_cons,
    List.length_replicate]
  ring

/-- Every walk ends: each step leaves fewer digits in front of the place. -/
theorem exists_ended_behind (front : List Int) (d : Int) (n : Nat) :
    ∃ v es, (behind front d n).Reaches v ∧ v.next = .ended es := by
  induction front using List.reverseRecOn generalizing d n with
  | nil =>
    by_cases hd : d = 9
    · exact ⟨_, _, .refl, hd ▸ next_behind_nil n⟩
    · exact ⟨_, _, .refl, next_behind_of_ne hd [] n⟩
  | append_singleton front e ih =>
    by_cases hd : d = 9
    · obtain ⟨v, es, hv, hes⟩ := ih e (n + 1)
      exact ⟨v, es, .head (hd ▸ next_behind_concat front e n) hv, hes⟩
    · exact ⟨_, _, .refl, next_behind_of_ne hd _ n⟩

/-- A walk ends with the digits of the sum. -/
theorem Follows.exists_ended (h : Follows ds w) (hes : addOne? ds = some es) :
    ∃ v, w.Reaches v ∧ v.next = .ended es := by
  obtain ⟨front, d, n, -, rfl⟩ := id h
  obtain ⟨v, es', hv, hend⟩ := exists_ended_behind front d n
  obtain ⟨u, hnext, -⟩ | ⟨es'', hnext, hsum⟩ := (h.reaches hv).next
  · rw [hend] at hnext
    cases hnext
  · rw [hend] at hnext
    cases hnext
    exact ⟨v, hv, Option.some.inj (hsum.symm.trans hes) ▸ hend⟩

end CarryWalk

/-- One is added to digits. The sum has digits that write one more, and as many of them, but for nines alone, which
become a one in front of zeros. The carry keeps to the places of the digits on its way, where they write the sum
all the time, and the sum is where it ends. -/
theorem adding_one_carries_nines {ds : List Int} (hne : ds ≠ []) (h : AllDigits ds) :
    ∃ es, addOne? ds = some es ∧ AllDigits es ∧ value es = value ds + 1 ∧
      ((∀ d, d ∈ ds → d = 9) ∧ es = 1 :: List.replicate ds.length 0 ∨
        (∃ d, d ∈ ds ∧ d ≠ 9) ∧ es.length = ds.length) ∧
      (∃ w, (CarryWalk.start ds).Reaches w ∧ w.next = .ended es) ∧
      ∀ w, (CarryWalk.start ds).Reaches w →
        0 ≤ w.place ∧ w.place < w.digits.length ∧ value w.digits = value ds + 1 := by
  obtain ⟨es, hes, hdigits, hvalue, -⟩ := exists_addOne?_eq hne h
  have hfollows := CarryWalk.follows_start hne
  refine ⟨es, hes, hdigits, hvalue, ?_, hfollows.exists_ended hes, fun w hw => ?_⟩
  · by_cases hnines : ∀ d, d ∈ ds → d = 9
    · exact .inl ⟨hnines, Option.some.inj (hes.symm.trans (addOne?_of_nines hne hnines))⟩
    · have hother : ∃ d, d ∈ ds ∧ d ≠ 9 := by push Not at hnines; exact hnines
      exact .inr ⟨hother, length_addOne?_of_ne_nine hes hother⟩
  · have hw := hfollows.reaches hw
    exact ⟨hw.place_bounds.1, hw.place_bounds.2, hw.value_eq⟩

/-- Nines carry through all places but no further. -/
theorem nines_become_a_power_of_ten :
    [9, 9, 9] ≠ ([] : List Int) ∧ AllDigits [9, 9, 9] ∧ addOne? [9, 9, 9] = some [1, 0, 0, 0] ∧
      ∀ w, (CarryWalk.start [9, 9, 9]).Reaches w →
        0 ≤ w.place ∧ w.place < w.digits.length ∧ value w.digits = 999 + 1 := by
  have hne : [9, 9, 9] ≠ ([] : List Int) := by decide
  have hdigits : AllDigits [9, 9, 9] := by unfold AllDigits; decide
  obtain ⟨es, hes, -, -, -, -, hwalk⟩ := adding_one_carries_nines hne hdigits
  exact ⟨hne, hdigits, rfl, hwalk⟩

end Reckoner.Decimal
