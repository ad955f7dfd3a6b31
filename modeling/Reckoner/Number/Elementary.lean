import Reckoner.Number.Bracket

/-!
Elementary functions of dyadic numbers, correctly rounded to a precision. Apart from the arguments
answered on their own, each value is irrational, so bounds that are narrow enough round alike.
Arguments so small that the function differs from its linear part by less than any rounding can see
are moved by a nudge.
-/

namespace Reckoner.Binary

/-- Scales are doubled this often at most. -/
def doublings : Nat := 24

/-- The value within the bounds, rounded to `p` bits. -/
def settleNearest (p start : Nat) (bounds : Nat → Option (Dyadic × Dyadic)) : Dyadic :=
  settle (nearest p) bounds doublings start

/-- The scale for a first attempt at `p` bits of a function whose argument has the magnitude `m`. -/
def firstScale (p : Nat) (m : Int) : Nat :=
  p + m.natAbs + 24

/-- The cube of the argument is too small to see beside it. -/
def isTiny (p : Nat) (x : Dyadic) : Bool :=
  2 * magnitude x + width x + p + 3 ≤ 0

/-- The argument itself is too small to see beside one. -/
def isMinute (p : Nat) (x : Dyadic) : Bool :=
  magnitude x + p + 3 ≤ 0

def simple (w : Nat) (bracket : Option Bracket) : Option (Dyadic × Dyadic) :=
  bracket.map (Bracket.bounds w 0)

/-- Change the sign of the result for a negative argument. -/
def odd (f : Dyadic → Dyadic) (x : Dyadic) : Dyadic :=
  if isNegative x then -f (-x) else f x

def exp (p : Nat) (x : Dyadic) : Dyadic :=
  if isZero x || isMinute p x then nearest p 1
  else settleNearest p (firstScale p (magnitude x)) fun w =>
    (Bracket.exp? w (.ofDyadic w x)).map fun (r, k) => r.bounds w k

/-- The bracket of the logarithm of a positive number. -/
def lnBracket (w : Nat) : Dyadic → Bracket
  | .zero => .exact 0
  | .ofOdd n k _ => .ln w n.natAbs k

/-- The natural logarithm of a positive number. -/
def ln (p : Nat) (x : Dyadic) : Dyadic :=
  if x = 1 then 0
  else settleNearest p (p + 32) fun w => simple w (some (lnBracket w x))

def sin (p : Nat) (x : Dyadic) : Dyadic :=
  if isZero x then 0
  else if isTiny p x then nearest p (nudge p (isNegative x) x)
  else settleNearest p (firstScale p (magnitude x)) fun w =>
    simple w ((Bracket.sinCos? w (.ofDyadic w x)).map Prod.fst)

def cos (p : Nat) (x : Dyadic) : Dyadic :=
  if isZero x || isMinute p x then nearest p 1
  else settleNearest p (firstScale p (magnitude x)) fun w =>
    simple w ((Bracket.sinCos? w (.ofDyadic w x)).map Prod.snd)

def tan (p : Nat) (x : Dyadic) : Dyadic :=
  if isZero x then 0
  else if isTiny p x then nearest p (nudge p (!isNegative x) x)
  else settleNearest p (firstScale p (magnitude x)) fun w =>
    simple w (Bracket.tan? w (.ofDyadic w x))

/-- The bracket of the inverse of a positive number; beyond the scale it is within one unit of zero. -/
def inverseBracket (w : Nat) : Dyadic → Bracket
  | .zero => .exact 0
  | .ofOdd n k _ =>
    if w + k < 0 then ⟨0, 1⟩ else .ofFraction (w + k).toNat 1 n.natAbs

/-- Half of the circle number, rounded. -/
def halfPi (p : Nat) : Dyadic :=
  settleNearest p (p + 32) fun w => simple w (some (.halfPi w))

def pi (p : Nat) : Dyadic :=
  halfPi p <<< (1 : Int)

def atanPositive (p : Nat) (x : Dyadic) : Dyadic :=
  if isTiny p x then nearest p (nudge p false x)
  else settleNearest p (p + 32 + (-magnitude x).toNat) fun w =>
    simple w <|
      if magnitude x ≤ 0 then Bracket.arctanUnit? w (.ofDyadic w x)
      else (Bracket.arctanUnit? w (inverseBracket w x)).map (Bracket.halfPi w).sub

def atan (p : Nat) (x : Dyadic) : Dyadic :=
  if isZero x then 0 else odd (atanPositive p) x

/-- The other short side of a right triangle with the hypotenuse one. -/
def otherSide (w : Nat) (x : Bracket) : Bracket :=
  ((Bracket.one w).sub (x.mul w x)).sqrt w

def asinPositive (p : Nat) (x : Dyadic) : Dyadic :=
  if x = 1 then halfPi p
  else if isTiny p x then nearest p (nudge p true x)
  else settleNearest p (p + 32 + (-magnitude x).toNat) fun w =>
    let side := Bracket.ofDyadic w x
    simple w (Bracket.angle? w side (otherSide w side))

/-- The inverse sine on `[-1, 1]`. -/
def asin (p : Nat) (x : Dyadic) : Dyadic :=
  if isZero x then 0 else odd (asinPositive p) x

/-- The inverse cosine on `[-1, 1]`. -/
def acos (p : Nat) (x : Dyadic) : Dyadic :=
  if x = 1 then 0
  else if x = -1 then pi p
  else if isZero x then halfPi p
  else settleNearest p (p + 32) fun w =>
    let side := Bracket.ofDyadic w (abs x)
    let acute := Bracket.angle? w (otherSide w side) side
    simple w <|
      if isNegative x then acute.map ((Bracket.halfPi w).scale 2).sub else acute

/-- The square root of a number that is not negative. -/
def sqrt (p : Nat) (x : Dyadic) : Dyadic :=
  nearest p (ofRoot p x)

end Reckoner.Binary
