import Reckoner.Number.Arithmetic
import Reckoner.Number.Elementary

/-!
Powers. A negative base needs a whole exponent. For a positive base the exponent is first made whole
by exact square roots of the base; a power with a whole exponent is exact if it is not too long, and
every other power is the exponential of a logarithm.
-/

namespace Reckoner

namespace Binary

/-- The dyadic as a whole number, if it is one. -/
def toInt? : Dyadic → Option Int
  | .zero => some 0
  | .ofOdd n k _ => if k ≤ 0 then some (n <<< (-k).toNat) else none

/-- Bounds on `exp (n ln s) · 2 ^ shift` for dyadic `n` and positive `s`. -/
def powerBounds (s n : Dyadic) (shift : Int) (w : Nat) : Option (Dyadic × Dyadic) :=
  (Bracket.exp? w ((lnBracket w s).mul w (.ofDyadic w n))).map fun (r, k) => r.bounds w (k + shift)

/-- The scale for a first attempt at a power: besides the bits wanted, those of the exponent of two in
the result. -/
def powerScale (p : Nat) (s n : Dyadic) : Nat :=
  p + (magnitude n).toNat + bitLength (magnitude s).natAbs + 32

/-- A power too long for exact work: its significant bits outnumber both a fixed bound and those that
a rounding could look at. -/
def isLong (p : Nat) (s : Dyadic) (n : Nat) : Bool :=
  4096 + 4 * p < width s * n

/-- A positive base with a whole exponent. The significant bits of the base are raised on their own, so
that a power of two is always exact. -/
def powInt (p : Nat) (s : Dyadic) (n : Int) : Dyadic :=
  match s with
  | .zero => .zero
  | .ofOdd m k _ =>
    if m = 1 then .ofIntWithPrec 1 (k * n)
    else if isLong p s n.natAbs then
      settleNearest p (powerScale p (.ofIntWithPrec m 0) (.ofInt n))
        (powerBounds (.ofIntWithPrec m 0) (.ofInt n) (-k * n))
    else if 0 ≤ n then nearest p (.ofIntWithPrec (Nat.pow m.natAbs n.toNat) (k * n))
    else nearest p (ofQuotient p false 1 (Nat.pow m.natAbs n.natAbs)) <<< (-k * n)

/-- A positive base. Each exact square root of the base doubles the exponent, at most as often as the
exponent has bits below the point. If the exponent does not become whole, the power is irrational. -/
def powPositive (p : Nat) : Nat → Dyadic → Dyadic → Dyadic
  | fuel, s, t =>
    match toInt? t with
    | some n => powInt p s n
    | none =>
      match fuel, exactRoot? s with
      | fuel + 1, some r => powPositive p fuel r (t <<< (1 : Int))
      | _, _ => settleNearest p (powerScale p s t) (powerBounds s t 0)

/-- The bits of a number below the point. -/
def fractionBits : Dyadic → Nat
  | .zero => 0
  | .ofOdd _ k _ => k.toNat

end Binary

namespace Number

/-- Whether a finite number is odd. -/
def isOdd : Dyadic → Bool
  | .zero => false
  | .ofOdd _ k _ => k = 0

/-- A whole exponent. -/
def powWhole (p : Nat) (s : Number) (n : Dyadic) : Except Error Number :=
  if Binary.isZero n then .ok .one
  else match s with
    | .undefined => .ok .undefined
    | .infinite negative =>
      .ok (if Binary.isNegative n then .zero else .infinite (negative && isOdd n))
    | .finite x =>
      if Binary.isZero x then
        if Binary.isNegative n then .error .divisionByZero else .ok .zero
      else
        let size := Binary.powInt p (Binary.abs x) ((Binary.toInt? n).getD 0)
        .ok (.finite (if Binary.isNegative x && isOdd n then -size else size))

/-- The power by way of the logarithm, for a base that is not negative and an exponent that is not
whole: the logarithm of zero is minus infinity. -/
def powLogarithmic (p : Nat) (s t : Number) : Number :=
  match s, t with
  | .undefined, _ | _, .undefined => .undefined
  | .infinite _, t => if t.isNegative then .zero else .infinite false
  | .finite x, .infinite negative =>
    if (Binary.magnitude x ≤ 0) != negative then .zero else .infinite false
  | .finite x, .finite y =>
    if Binary.isZero x then if Binary.isNegative y then .infinite false else .zero
    else .finite (Binary.nearest p (Binary.powPositive p (Binary.fractionBits y) x y))

/-- A half-odd exponent is a power of the square root, so that zero to a negative one divides by zero. -/
def isHalfOdd : Dyadic → Bool
  | .zero => false
  | .ofOdd _ k _ => k = 1

def pow (p : Nat) (s t : Number) : Except Error Number :=
  match t with
  | .finite y =>
    if Binary.isInteger y then powWhole p s y
    else if s.isNegative then .error (.notReal "^")
    else if isHalfOdd y && s.isZero && Binary.isNegative y then .error .divisionByZero
    else if s = .one then .ok .one
    else .ok (powLogarithmic p s t)
  | _ =>
    if s.isNegative then .error (.notReal "^")
    else if s = .one then .ok .one
    else .ok (powLogarithmic p s t)

end Number

end Reckoner
