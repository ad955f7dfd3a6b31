import Reckoner.Error
import Reckoner.Number.Basic

/-!
Arithmetic rounded to a precision. Each operation is exact first and rounded once; infinities and the
undefined value follow their usual laws, except that nothing can be divided by zero.
-/

namespace Reckoner

namespace Binary

/-- `y` lies so far below the last bit of `x` that their sum rounds like `x` with a nudge. -/
def isNegligible (p : Nat) (x y : Dyadic) : Bool :=
  magnitude y + nudgePlace p x ≤ 0

def add (p : Nat) (x y : Dyadic) : Dyadic :=
  nearest p <|
    if isZero x || isZero y then x + y
    else if isNegligible p x y then nudge p (!isNegative y) x
    else if isNegligible p y x then nudge p (!isNegative x) y
    else x + y

def mul (p : Nat) (x y : Dyadic) : Dyadic :=
  nearest p (x * y)

/-- The quotient by a number other than zero. -/
def div (p : Nat) : Dyadic → Dyadic → Dyadic
  | .zero, _ => .zero
  | _, .zero => .zero
  | .ofOdd n k _, .ofOdd m l _ =>
    nearest p (ofQuotient p (decide (n < 0) != decide (m < 0)) n.natAbs m.natAbs) >>> (k - l)

end Binary

namespace Number

def neg (p : Nat) : Number → Number
  | .finite x => .finite (Binary.nearest p (-x))
  | .infinite negative => .infinite (!negative)
  | .undefined => .undefined

def abs (p : Nat) : Number → Number
  | .finite x => .finite (Binary.nearest p (Binary.abs x))
  | .infinite _ => .infinite false
  | .undefined => .undefined

def add (p : Nat) : Number → Number → Number
  | .undefined, _ | _, .undefined => .undefined
  | .infinite a, .infinite b => if a = b then .infinite a else .undefined
  | .infinite a, .finite _ | .finite _, .infinite a => .infinite a
  | .finite x, .finite y => .finite (Binary.add p x y)

/-- The sign is changed without rounding. -/
def flip : Number → Number
  | .finite x => .finite (-x)
  | .infinite negative => .infinite (!negative)
  | .undefined => .undefined

def sub (p : Nat) (a b : Number) : Number :=
  add p a b.flip

def mul (p : Nat) : Number → Number → Number
  | .undefined, _ | _, .undefined => .undefined
  | .infinite a, .infinite b => .infinite (a != b)
  | .infinite a, .finite x | .finite x, .infinite a =>
    if Binary.isZero x then .undefined else .infinite (a != Binary.isNegative x)
  | .finite x, .finite y => .finite (Binary.mul p x y)

/-- Nothing can be divided by zero, not even the undefined value. -/
def div (p : Nat) (a b : Number) : Except Error Number :=
  if b.isZero then .error .divisionByZero
  else .ok <|
    match a, b with
    | .undefined, _ | _, .undefined => .undefined
    | .infinite _, .infinite _ => .undefined
    | .infinite c, .finite x => .infinite (c != Binary.isNegative x)
    | .finite _, .infinite _ => .zero
    | .finite x, .finite y => .finite (Binary.div p x y)

end Number

end Reckoner
