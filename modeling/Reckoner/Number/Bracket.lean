import Reckoner.Number.Rounding

/-!
Brackets: bounds on a real number in units of `2 ^ (-w)`, where the scale `w` is the same throughout a
computation. Every operation rounds the lower bound down and the upper bound up.
-/

namespace Reckoner

/-- A real number known to lie between two multiples of the unit. -/
structure Bracket where
  lo : Int
  hi : Int

namespace Bracket

/-- The quotient rounded up. -/
def ceilDiv (n d : Int) : Int :=
  -((-n) / d)

def ceilShift (n : Int) (s : Nat) : Int :=
  -((-n) >>> s)

/-- A whole number of units. -/
def exact (n : Int) : Bracket :=
  ⟨n, n⟩

def one (w : Nat) : Bracket :=
  exact (1 <<< w)

/-- The bracket of a dyadic. A value far below the unit is only known to be within one unit of zero. -/
def ofDyadic (w : Nat) : Dyadic → Bracket
  | .zero => exact 0
  | .ofOdd n k _ =>
    if k ≤ w then exact (n <<< (w - k).toNat)
    else
      let down := n >>> min (k - w).toNat (bitLength n.natAbs)
      ⟨down, down + 1⟩

/-- The bracket of `n / d` for natural numbers, `0 < d`. -/
def ofFraction (w n d : Nat) : Bracket :=
  let scaled : Int := n <<< w
  ⟨scaled / d, ceilDiv scaled d⟩

def add (a b : Bracket) : Bracket :=
  ⟨a.lo + b.lo, a.hi + b.hi⟩

def neg (a : Bracket) : Bracket :=
  ⟨-a.hi, -a.lo⟩

def sub (a b : Bracket) : Bracket :=
  a.add b.neg

def scale (k : Int) (a : Bracket) : Bracket :=
  if 0 ≤ k then ⟨k * a.lo, k * a.hi⟩ else ⟨k * a.hi, k * a.lo⟩

def widen (margin : Int) (a : Bracket) : Bracket :=
  ⟨a.lo - margin, a.hi + margin⟩

/-- The bracket of a number that is not negative. -/
def notNegative (a : Bracket) : Bracket :=
  ⟨max 0 a.lo, a.hi⟩

/-- The greatest absolute value within the bounds. -/
def size (a : Bracket) : Nat :=
  max a.lo.natAbs a.hi.natAbs

def least (a b c d : Int) : Int := min (min a b) (min c d)

def greatest (a b c d : Int) : Int := max (max a b) (max c d)

def mul (w : Nat) (a b : Bracket) : Bracket :=
  let p := a.lo * b.lo
  let q := a.lo * b.hi
  let r := a.hi * b.lo
  let s := a.hi * b.hi
  ⟨least p q r s >>> w, ceilShift (greatest p q r s) w⟩

/-- Division by a positive integer. -/
def divNat (a : Bracket) (d : Nat) : Bracket :=
  ⟨a.lo / d, ceilDiv a.hi d⟩

/-- Division by a bracket of positive numbers. -/
def div? (w : Nat) (a b : Bracket) : Option Bracket :=
  if b.lo ≤ 0 then none
  else
    let lo := a.lo <<< w
    let hi := a.hi <<< w
    some ⟨min (lo / b.lo) (lo / b.hi), max (ceilDiv hi b.lo) (ceilDiv hi b.hi)⟩

/-- The square root of a bracket of numbers that are not negative. -/
def sqrt (w : Nat) (a : Bracket) : Bracket :=
  ⟨Binary.root (a.lo.toNat <<< w), Binary.root (a.hi.toNat <<< w) + 1⟩

/-- The sum of `t₀, t₁, …` with `tⱼ₊₁ = tⱼ · x / d j`. From the second term on each is at most half
the one before, so that what is left out is no more than the last term. -/
def sumRatios (w : Nat) (x : Bracket) (d : Nat → Nat) : Nat → Nat → Bracket → Bracket → Bracket
  | 0, _, term, sum => sum.widen (term.size + 1)
  | fuel + 1, j, term, sum =>
    let next := (term.mul w x).divNat (d j)
    if next.size ≤ 1 ∧ 0 < j then (sum.add next).widen 2
    else sumRatios w x d fuel (j + 1) next (sum.add next)

/-- The sum of `p₀ / 1, p₁ / 3, p₂ / 5, …` with `pⱼ₊₁ = pⱼ · x` and `|x| ≤ 1 / 4`. -/
def sumOddQuotients (w : Nat) (x : Bracket) : Nat → Nat → Bracket → Bracket → Bracket
  | 0, _, power, sum => sum.widen (power.size + 1)
  | fuel + 1, j, power, sum =>
    let next := power.mul w x
    if next.size ≤ 1 then sum.widen 2
    else sumOddQuotients w x fuel (j + 1) next (sum.add (next.divNat (2 * j + 1)))

def oddSeries (w : Nat) (x first : Bracket) : Bracket :=
  sumOddQuotients w x (w + 8) 1 first first

/-- The inverse hyperbolic tangent, for arguments of at most one half. -/
def artanh (w : Nat) (z : Bracket) : Bracket :=
  oddSeries w (z.mul w z) z

/-- The inverse tangent, for arguments of at most one half. -/
def arctanSmall (w : Nat) (z : Bracket) : Bracket :=
  oddSeries w (z.mul w z).neg z

/-- The natural logarithm of two, `2 artanh (1/3)`. -/
def ln2 (w : Nat) : Bracket :=
  scale 2 (artanh w (ofFraction w 1 3))

/-- Half of the circle number, `8 arctan (1/5) - 2 arctan (1/239)`. -/
def halfPi (w : Nat) : Bracket :=
  (scale 8 (arctanSmall w (ofFraction w 1 5))).sub (scale 2 (arctanSmall w (ofFraction w 1 239)))

/-- The inverse tangent of numbers from zero to one, from that of half the angle. -/
def arctanUnit? (w : Nat) (z : Bracket) : Option Bracket := do
  let hypotenuse := ((one w).add (z.mul w z)).sqrt w
  let half ← z.div? w ((one w).add hypotenuse)
  pure (scale 2 (arctanSmall w half))

/-- The angle of the point `(x, y)` of the first quadrant. -/
def angle? (w : Nat) (y x : Bracket) : Option Bracket :=
  if y.lo ≤ x.lo then y.div? w x >>= arctanUnit? w
  else do
    let rest ← x.div? w y >>= arctanUnit? w
    pure ((halfPi w).sub rest)

/-- The exponential of numbers between minus one and one, with no bound below zero. -/
def expSmall (w : Nat) (r : Bracket) : Bracket :=
  (sumRatios w r (· + 1) (w + 8) 0 (one w) (one w)).notNegative

/-- The sine of numbers between minus one and one. -/
def sinSmall (w : Nat) (r : Bracket) : Bracket :=
  sumRatios w (r.mul w r).neg (fun j => (2 * j + 2) * (2 * j + 3)) (w + 8) 0 r r

/-- The cosine of numbers between minus one and one. -/
def cosSmall (w : Nat) (r : Bracket) : Bracket :=
  sumRatios w (r.mul w r).neg (fun j => (2 * j + 1) * (2 * j + 2)) (w + 8) 0 (one w) (one w)

/-- The logarithm of `n · 2 ^ (-k)`, `0 < n`: with the leading bit of `n` taken out as a power of two,
the rest `u` has the logarithm `2 artanh ((u - 1) / (u + 1))`. -/
def ln (w n : Nat) (k : Int) : Bracket :=
  let top := n.log2
  let leading := Nat.pow 2 top
  let z := ofFraction w (n - leading) (n + leading)
  (scale 2 (artanh w z)).add (scale (top - k) (ln2 w))

/-- `r` and `k` with `x = r + k · unit`, where `k` is the integer next to `x / unit`.
The answer is missing if the bounds on `r` are not within one. -/
def reduce? (w : Nat) (x unit : Bracket) : Option (Bracket × Int) :=
  if unit.lo ≤ 0 then none
  else
    let k := (2 * x.lo + unit.lo) / (2 * unit.lo)
    let r := x.sub (unit.scale k)
    if r.size ≤ 1 <<< w then some (r, k) else none

/-- Bounds on `exp x · 2 ^ (-k)`, with `k`. -/
def exp? (w : Nat) (x : Bracket) : Option (Bracket × Int) := do
  let (r, k) ← reduce? w x (ln2 w)
  pure (expSmall w r, k)

/-- Sine and cosine. -/
def sinCos? (w : Nat) (x : Bracket) : Option (Bracket × Bracket) := do
  let (r, k) ← reduce? w x (halfPi w)
  let s := sinSmall w r
  let c := cosSmall w r
  pure (match k % 4 with
    | 0 => (s, c)
    | 1 => (c, s.neg)
    | 2 => (s.neg, c.neg)
    | _ => (c.neg, s))

def tan? (w : Nat) (x : Bracket) : Option Bracket := do
  let (s, c) ← sinCos? w x
  if c.hi < 0 then s.neg.div? w c.neg else s.div? w c

/-- The bounds as dyadics, for the value times `2 ^ shift`. -/
def bounds (w : Nat) (shift : Int) (a : Bracket) : Dyadic × Dyadic :=
  (.ofIntWithPrec a.lo (w - shift), .ofIntWithPrec a.hi (w - shift))

end Bracket

/-- Look at a real number through a function that is constant near it: double the scale of its bounds
until the function agrees on both. The number of doublings is limited. -/
def settle? {α : Type} [DecidableEq α] (view : Dyadic → α) (bounds : Nat → Option (Dyadic × Dyadic)) :
    Nat → Nat → Option α
  | 0, _ => none
  | fuel + 1, w =>
    match bounds w with
    | some (lo, hi) => if view lo = view hi then some (view lo) else settle? view bounds fuel (2 * w)
    | none => settle? view bounds fuel (2 * w)

/-- The same, where at the last scale the lower bound decides. -/
def settle {α : Type} [DecidableEq α] (view : Dyadic → α) (bounds : Nat → Option (Dyadic × Dyadic)) :
    Nat → Nat → α
  | 0, w => view ((bounds w).elim 0 Prod.fst)
  | fuel + 1, w =>
    match bounds w with
    | some (lo, hi) => if view lo = view hi then view lo else settle view bounds fuel (2 * w)
    | none => settle view bounds fuel (2 * w)

end Reckoner
