import Reckoner.Number.Rounding

/-!
The numbers of the calculator: dyadic rationals with unbounded exponents, the two infinities and one
undefined value. There is a single zero. A value is a number that belongs to a number context.
-/

namespace Reckoner

inductive Number where
  | finite (value : Dyadic)
  | infinite (negative : Bool)
  | undefined
  deriving DecidableEq

namespace Number

def zero : Number := .finite 0

def one : Number := .finite 1

def isFinite : Number → Bool
  | .finite _ => true
  | _ => false

def isZero : Number → Bool
  | .finite x => Binary.isZero x
  | _ => false

def isNegative : Number → Bool
  | .finite x => Binary.isNegative x
  | .infinite negative => negative
  | .undefined => false

/-- A finite number with at most `p` significant bits, or one that is not finite. -/
def Fits (p : Nat) : Number → Prop
  | .finite x => Binary.Fits p x
  | _ => True

/-- Round a finite number to the precision. -/
def round (p : Nat) : Number → Number
  | .finite x => .finite (Binary.nearest p x)
  | n => n

end Number

/-- A number and the precision of the number context that it belongs to. It may have more bits than that. -/
structure Value where
  number : Number
  precision : Nat
  deriving DecidableEq

namespace Value

/-- A number that belongs to a context of the precision and has no more bits. -/
structure Fits (p : Nat) (v : Value) : Prop where
  precision : v.precision = p
  number : v.number.Fits p

/-- What is kept of a number outside of its context: the precision, from which the context is found again, and
the number with all its bits. -/
def reduce (v : Value) : Nat × Number :=
  (v.precision, v.number)

/-- A number put into the context of a precision. -/
def restore (p : Nat) (n : Number) : Value :=
  ⟨n, p⟩

/-- What a copier makes of a number. -/
def rebuild (v : Value) : Value :=
  restore v.reduce.1 v.reduce.2

@[simp]
theorem rebuild_eq (v : Value) : v.rebuild = v :=
  rfl

end Value

end Reckoner
