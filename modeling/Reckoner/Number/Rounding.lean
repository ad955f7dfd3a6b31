/-!
Rounding of real values to binary precision: the nearest dyadic of so many significant bits, and of
two equally near ones the even. Exponents are unbounded, so rounding commutes with powers of two.
-/

namespace Reckoner

/-- The integer nearest to `n / d`, the even one of two. -/
def nearestQuotient (n d : Nat) : Nat :=
  let q := n / d
  let r := n % d
  if 2 * r < d then q else if d < 2 * r then q + 1 else q + q % 2

def bitLength (n : Nat) : Nat :=
  if n = 0 then 0 else n.log2 + 1

/-- A number with the given sign and absolute value. -/
def withSign (negative : Bool) (n : Nat) : Int :=
  if negative then -n else n

namespace Binary

/-- The number of significant bits. -/
def width : Dyadic → Nat
  | .zero => 0
  | .ofOdd n _ _ => bitLength n.natAbs

/-- The exponent `e` with `2 ^ (e - 1) ≤ |x| < 2 ^ e`, and zero for zero. -/
def magnitude : Dyadic → Int
  | .zero => 0
  | .ofOdd n k _ => bitLength n.natAbs - k

def isNegative : Dyadic → Bool
  | .zero => false
  | .ofOdd n _ _ => n < 0

def isZero : Dyadic → Bool
  | .zero => true
  | .ofOdd .. => false

def abs (x : Dyadic) : Dyadic :=
  if isNegative x then -x else x

/-- A whole number has no bits below the point. -/
def isInteger : Dyadic → Bool
  | .zero => true
  | .ofOdd _ k _ => k ≤ 0

/-- `x` has at most `p` significant bits. -/
def Fits (p : Nat) (x : Dyadic) : Prop :=
  width x ≤ p

/-- The nearest dyadic of at most `p` significant bits, ties to even. -/
def nearest (p : Nat) : Dyadic → Dyadic
  | .zero => .zero
  | .ofOdd n k h =>
    let excess := bitLength n.natAbs - p
    if excess = 0 then .ofOdd n k h
    else .ofIntWithPrec (withSign (n < 0) (nearestQuotient n.natAbs (Nat.pow 2 excess))) (k - excess)

/-- A value next to `x` that rounds to `p` bits like every value strictly between `x` and it: so far
below the last bit of `x` no number of `p` bits and no midpoint of two lies near. -/
def nudge (p : Nat) (up : Bool) : Dyadic → Dyadic
  | .zero => .zero
  | .ofOdd n k _ => .ofIntWithPrec ((n <<< (p + 3)) + (if up then 1 else -1)) (k + (p + 3))

/-- How far below the point the bit of a nudge lies. -/
def nudgePlace (p : Nat) : Dyadic → Int
  | .zero => 0
  | .ofOdd _ k _ => k + (p + 3)

/-- A dyadic with `p + 2` bits or more that rounds to `p` bits like `n / d` does: one more bit tells
whether the division leaves a rest. -/
def ofQuotient (p : Nat) (negative : Bool) (n d : Nat) : Dyadic :=
  let shift := p + 2 + bitLength d - bitLength n
  let scaled := n <<< shift
  let sticky := if scaled % d = 0 then 0 else 1
  .ofIntWithPrec (withSign negative (2 * (scaled / d) + sticky)) (shift + 1)

/-- The largest integer whose square is at most `n`, looked for downwards from `x`. -/
def rootFrom (n x : Nat) : Nat :=
  let y := (x + n / x) / 2
  if y < x then rootFrom n y else x
termination_by x

/-- The integer part of a square root. -/
def root (n : Nat) : Nat :=
  if n ≤ 1 then n else rootFrom n (Nat.pow 2 ((bitLength n + 1) / 2))

/-- A dyadic with `p + 2` bits or more that rounds to `p` bits like the square root of `x` does. -/
def ofRoot (p : Nat) : Dyadic → Dyadic
  | .zero => .zero
  | .ofOdd n k _ =>
    let short := 2 * p + 4 - bitLength n.natAbs
    let shift := if (k + short) % 2 = 0 then short else short + 1
    let m := n.natAbs <<< shift
    let r := root m
    let sticky := if r * r = m then 0 else 1
    .ofIntWithPrec (2 * r + sticky) ((k + shift) / 2 + 1)

/-- The square root of a dyadic, if it is a dyadic. -/
def exactRoot? : Dyadic → Option Dyadic
  | .zero => some .zero
  | .ofOdd n k _ =>
    let r := root n.natAbs
    if 0 < n ∧ k % 2 = 0 ∧ r * r = n.natAbs then some (.ofIntWithPrec r (k / 2)) else none

end Binary

end Reckoner
