/-!
Settings of a session: the working precision in bits, how numbers are shown, and whether traces are.
-/

namespace Reckoner

structure Settings where
  precision : Int := 128
  digits : Int := 15
  threshold : Int := 3
  debug : Bool := false
  deriving DecidableEq, Repr

namespace Settings

/-- The setting that is out of range, with its value. -/
inductive Fault where
  | precision (value : Int)
  | digits (value : Int)
  | threshold (value : Int)
  deriving DecidableEq, Repr

def Fault.message : Fault → String
  | precision n => s!"precision must be at least 2 bits, got {n}"
  | digits n => s!"display digits must be at least 1, got {n}"
  | threshold n => s!"scientific threshold must not be negative, got {n}"

/-- All settings are within range. -/
def Valid (s : Settings) : Prop :=
  2 ≤ s.precision ∧ 1 ≤ s.digits ∧ 0 ≤ s.threshold

instance (s : Settings) : Decidable s.Valid :=
  inferInstanceAs (Decidable (_ ∧ _))

/-- The settings themselves, or the first of them that is out of range. -/
def validate (s : Settings) : Except Fault Settings :=
  if s.precision < 2 then .error (.precision s.precision)
  else if s.digits < 1 then .error (.digits s.digits)
  else if s.threshold < 0 then .error (.threshold s.threshold)
  else .ok s

theorem validate_eq_ok_iff {s t : Settings} : s.validate = .ok t ↔ s = t ∧ s.Valid := by
  unfold validate Valid
  split
  · simp only [reduceCtorEq, false_iff]; omega
  split
  · simp only [reduceCtorEq, false_iff]; omega
  split
  · simp only [reduceCtorEq, false_iff]; omega
  · simp only [Except.ok.injEq, iff_self_and]; omega

/-- The precision as a number of bits. -/
def bits (s : Settings) : Nat :=
  s.precision.toNat

end Settings

end Reckoner
