import Reckoner.Decimal.Carry
import Reckoner.Decimal.Digits

/-!
Rounding of a decimal mantissa `0.d₁d₂d₃… · 10 ^ exponent` to a number of significant digits. The
significant digits start at the first digit that is not zero, and a five is rounded up.
-/

namespace Reckoner.Decimal

/-- A mantissa with its exponent. -/
structure Mantissa where
  exponent : Int
  digits : List Int
  deriving DecidableEq, Repr

/-- The place of an index: one below zero counts from the end. -/
def place (length : Nat) (index : Int) : Int :=
  if index < 0 then length + index else index

/-- Keep the digits before the cut, and add one in the last of them if the digit at the cut is five
or more. The exponent grows with the number of digits. -/
def cutAt (m : Mantissa) (cut : Nat) : Except Fault Mantissa :=
  match m.digits[cut]? with
  | none => .error .outOfRange
  | some d =>
    let kept := m.digits.take cut
    if 5 ≤ d then
      match addOne? kept with
      | none => .error .outOfRange
      | some ds =>
        .ok ⟨if kept.length < ds.length then m.exponent + 1 else m.exponent, ds⟩
    else .ok ⟨m.exponent, kept⟩

/-- Round to `precision` significant digits. Nothing comes of a mantissa without a significant digit,
and one that is short enough stays as it is. -/
def roundTo (m : Mantissa) (precision : Int) : Except Fault (Option Mantissa) :=
  match m.digits.findIdx? (· ≠ 0) with
  | none => .ok none
  | some first =>
    let cut : Int := first + precision
    if m.digits.length ≤ cut then .ok (some m)
    else
      let index := place m.digits.length cut
      if index < 0 then .error .outOfRange else some <$> cutAt m index.toNat

end Reckoner.Decimal
