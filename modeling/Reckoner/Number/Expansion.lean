import Reckoner.Decimal.Digits
import Reckoner.Decimal.Layout
import Reckoner.Decimal.Rounding
import Reckoner.Number.Arithmetic
import Reckoner.Number.DecimalScale

/-!
The decimal expansion of a number and its display. The expansion has more digits than the precision is
worth and is cut off toward zero; the display rounds it once, to the digits that are shown.
-/

namespace Reckoner.Number

/-- Bits per decimal digit, `log₂ 10` in 53 bits, as a fraction of two natural numbers. -/
def bitsPerDigit : Nat × Nat :=
  (3740158532571577, Nat.pow 2 50)

/-- So many bits in decimal digits, as a number of 53 bits. -/
def digitsIn (bits : Nat) : Dyadic :=
  Binary.div 53 (Binary.nearest 53 (.ofInt bits)) (.ofIntWithPrec bitsPerDigit.1 50)

/-- The number of decimal digits that `p` bits are worth. -/
def digitsOfPrecision (p : Nat) : Nat :=
  max 1 (Binary.nearestNat (digitsIn p) - 1)

/-- Digits carried beyond those of the precision. -/
def guardDigits : Nat := 3

/-- The least number of digits of an expansion. -/
def workingDigits (p : Nat) : Nat :=
  digitsOfPrecision p + guardDigits

/-- The bits that the digits of an expansion need, and some to spare. -/
def workingBits (p : Nat) : Nat :=
  workingDigits p * bitsPerDigit.1 / bitsPerDigit.2 + 10

/-- The number of decimal places at which a value of the given magnitude is cut off. -/
def decimalPlaces (p : Nat) (magnitude : Int) : Nat :=
  let bits := (workingBits p - magnitude).toNat
  (2 * bits * bitsPerDigit.2 + bitsPerDigit.1) / (2 * bitsPerDigit.1)

/-- Magnitudes up to this size are expanded directly, others after division by a power of ten. -/
def directMagnitude : Nat := 3500

/-- The power of ten that is divided out before an expansion. -/
def outerExponent (x : Dyadic) : Int :=
  if (Binary.magnitude x).natAbs ≤ directMagnitude then 0
  else Binary.decimalExponent true (Binary.magnitude x - Binary.width x)

/-- The magnitude of the value that remains after a power of ten is divided out. It is more than a
tenth, so that its leading bit is among the first four places below the point at the latest. -/
def innerMagnitude (p : Nat) (x : Dyadic) (outer : Int) : Int :=
  if outer = 0 then Binary.magnitude x
  else bitLength (Binary.scaledFloor p (x <<< (4 : Int)) (-outer)) - 4

/-- The expansion of a positive dyadic as `0.d₁d₂d₃… · 10 ^ exponent`. -/
def expandPositive (p : Nat) (x : Dyadic) : Decimal.Mantissa :=
  let outer := outerExponent x
  let places : Int := decimalPlaces p (innerMagnitude p x outer) - outer
  let ds := Decimal.digits (Binary.scaledFloor p x places)
  ⟨ds.length - places, ds.map Int.ofNat⟩

/-- The expansion of the absolute value, rounded to the precision first. -/
def expand (p : Nat) (x : Dyadic) : Decimal.Mantissa :=
  expandPositive p (Binary.abs (Binary.nearest p x))

/-- The text of a number with the given count of significant digits. The exponent is shown when its
size exceeds the threshold. -/
def display (p : Nat) (digits threshold : Int) : Number → Except Decimal.Fault String
  | .undefined => .ok "nan"
  | .infinite negative => .ok (if negative then "-inf" else "inf")
  | .finite x =>
    if Binary.isZero x then .ok "0"
    else do
      match ← Decimal.roundTo (expand p x) digits with
      | none => .error .allZero
      | some m => Decimal.layout (Binary.isNegative x) m.digits m.exponent threshold

end Reckoner.Number
