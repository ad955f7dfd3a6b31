import Reckoner.Decimal.Digits
import Reckoner.Number.Elementary
import Reckoner.Number.Arithmetic

/-!
Products of a dyadic and a power of ten. A moderate power is worked out exactly. For a large one the
power of five in it is irrationally placed between dyadics for every purpose here, and bounds from
its logarithm decide how the product rounds.
-/

namespace Reckoner.Binary

/-- Powers of ten up to this size, or up to the length of the other factor, are worked out exactly. -/
def isModerate (p : Nat) (x : Dyadic) (exponent : Int) : Bool :=
  exponent.natAbs ≤ 4096 + 2 * p + width x

/-- Bounds on `x · 10 ^ exponent`, `x` positive. -/
def decimalBounds (x : Dyadic) (exponent : Int) (w : Nat) : Option (Dyadic × Dyadic) :=
  let five := (Bracket.ln w 5 0).scale exponent
  match x with
  | .zero => none
  | .ofOdd n k _ =>
    (Bracket.exp? w ((Bracket.ln w n.natAbs 0).add five)).map fun (r, j) =>
      r.bounds w (j + exponent - k)

def decimalStart (p : Nat) (exponent : Int) : Nat :=
  p + bitLength exponent.natAbs + 40

/-- The product of a positive dyadic and a power of ten, rounded to `p` bits. -/
def timesPowerOfTen (p : Nat) (x : Dyadic) (exponent : Int) : Dyadic :=
  if isModerate p x exponent then
    match x with
    | .zero => .zero
    | .ofOdd n k _ =>
      let five := Nat.pow 5 exponent.natAbs
      let significand := if 0 ≤ exponent then Dyadic.ofInt (n * five)
        else ofQuotient p (n < 0) n.natAbs five
      nearest p significand <<< (exponent - k)
  else settleNearest p (decimalStart p exponent) (decimalBounds x exponent)

/-- The integer part of a dyadic that is not negative. -/
def floor : Dyadic → Nat
  | .zero => 0
  | .ofOdd n k _ => if k ≤ 0 then n.natAbs <<< (-k).toNat else n.natAbs >>> k.toNat

/-- The integer nearest to a dyadic that is not negative, the even one of two. -/
def nearestNat : Dyadic → Nat
  | .zero => 0
  | .ofOdd n k _ =>
    if k ≤ 0 then n.natAbs <<< (-k).toNat else nearestQuotient n.natAbs (Nat.pow 2 k.toNat)

/-- An integer next to `n · 2 ^ (-k) · 10 ^ exponent`, as a quotient of two natural numbers. -/
def exactInteger (quotient : Nat → Nat → Nat) (n : Nat) (k exponent : Int) : Nat :=
  let up (e : Int) (m : Nat) := if 0 ≤ e then m else 1
  let ten := Nat.pow 10 exponent.natAbs
  let two := Nat.pow 2 k.natAbs
  quotient (n * up exponent ten * up (-k) two) (up (-exponent - 1) ten * up (k - 1) two)

/-- An integer next to `x · 10 ^ exponent`, `x` positive. The quotient is formed if the powers in it are
moderate; otherwise bounds on the product are looked at first. -/
def scaledInteger (quotient : Nat → Nat → Nat) (view : Dyadic → Nat) (p : Nat) (x : Dyadic)
    (exponent : Int) : Nat :=
  match x with
  | .zero => 0
  | .ofOdd n k _ =>
    if isModerate p x exponent && isModerate p x k then exactInteger quotient n.natAbs k exponent
    else
      match settle? view (decimalBounds x exponent) doublings (decimalStart p exponent) with
      | some m => m
      | none => exactInteger quotient n.natAbs k exponent

/-- The integer part of `x · 10 ^ exponent`. -/
def scaledFloor : Nat → Dyadic → Int → Nat :=
  scaledInteger (· / ·) floor

/-- The integer nearest to `x · 10 ^ exponent`. -/
def scaledNearest : Nat → Dyadic → Int → Nat :=
  scaledInteger nearestQuotient nearestNat

/-- A bracket of the decimal logarithm of two. -/
def log10Two? (w : Nat) : Option Bracket :=
  (Bracket.ln2 w).div? w (.ln w 10 0)

/-- Bounds on `n · log₁₀ 2`. -/
def log10PowerBounds (n w : Nat) : Option (Dyadic × Dyadic) :=
  (log10Two? w).map fun b => (b.notNegative.scale n).bounds w 0

/-- The integer part of `n · log₁₀ 2`, one less than the number of digits of `2 ^ n`. -/
def log10Power (n : Nat) : Nat :=
  match settle? floor (log10PowerBounds n) doublings (bitLength n + 32) with
  | some m => m
  | none => (Decimal.digits (Nat.pow 2 n)).length - 1

/-- `e · log₁₀ 2` rounded down or, on request, toward zero. -/
def decimalExponent (towardZero : Bool) (e : Int) : Int :=
  let size : Int := log10Power e.natAbs
  if e < 0 then if towardZero then -size else -size - 1 else size

end Reckoner.Binary
