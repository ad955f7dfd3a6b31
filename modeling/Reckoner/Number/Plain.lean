import Reckoner.Number.Expansion

/-!
The text of a number inside a printed tree: as many significant digits as the precision is worth, ties
to even, written out for exponents from minus four up to the number of digits.
-/

namespace Reckoner.Number

/-- A value with so many significant digits: the integer they write and the exponent of the first. -/
structure Significant where
  digits : List Nat
  exponent : Int

/-- Round a positive dyadic to `count` significant digits. The exponent of the leading digit is first
taken from the leading bit, which may be one too small. -/
def significant (p count : Nat) (x : Dyadic) : Significant :=
  let exponent := Binary.decimalExponent false (Binary.magnitude x - 1)
  let rounded (e : Int) := Binary.scaledNearest p x (count - 1 - e)
  let first := rounded exponent
  if first < Nat.pow 10 count then ⟨Decimal.digits first, exponent⟩
  else ⟨Decimal.digits (rounded (exponent + 1)), exponent + 1⟩

def naturalText (ds : List Nat) : List Char :=
  Decimal.digitsText (ds.map Int.ofNat)

def trimZeros (ds : List Nat) : List Nat :=
  (ds.reverse.dropWhile (· = 0)).reverse

/-- The digits written out, with at least one after the point. -/
def fixedText (s : Significant) : List Char :=
  let split (ds : List Nat) (n : Nat) : List Char :=
    let fraction := trimZeros (ds.drop n)
    naturalText (ds.take n) ++ '.' :: (if fraction.isEmpty then ['0'] else naturalText fraction)
  if s.exponent < 0 then split (List.replicate s.exponent.natAbs 0 ++ s.digits) 1
  else split s.digits (s.exponent.toNat + 1)

/-- One digit before the point and the exponent with a sign and two digits at least. -/
def exponentText (s : Significant) : List Char :=
  let fraction := trimZeros (s.digits.drop 1)
  let size := (toString s.exponent.natAbs).toList
  naturalText (s.digits.take 1) ++ (if fraction.isEmpty then [] else '.' :: naturalText fraction)
    ++ 'e' :: (if s.exponent < 0 then '-' else '+')
    :: (List.replicate (2 - size.length) '0' ++ size)

/-- The digits of a number in a printed tree. -/
def plainDigits (p : Nat) (x : Dyadic) : Significant :=
  significant p (digitsOfPrecision p) (Binary.abs x)

/-- The exponent, where there is one to be written, does not have too many digits. -/
def hasPlainText (p : Nat) : Number → Bool
  | .finite x => Binary.isZero x || (plainDigits p x).exponent.natAbs < Decimal.exponentLimit
  | _ => true

/-- The text of a number in a printed tree. -/
def plainText (p : Nat) : Number → String
  | .undefined => "nan"
  | .infinite negative => if negative then "-inf" else "inf"
  | .finite x =>
    let count := digitsOfPrecision p
    if Binary.isZero x then if count = 1 then "0e+00" else "0.0"
    else
      let s := plainDigits p x
      let body := if -4 ≤ s.exponent ∧ s.exponent < count - 1 then fixedText s else exponentText s
      String.ofList (if Binary.isNegative x then '-' :: body else body)

end Reckoner.Number

namespace Reckoner.Value

/-- The number can be written in the digits of its context. -/
def hasPlainText (v : Value) : Bool :=
  v.number.hasPlainText v.precision

/-- The text of a number in the digits of its context. -/
def plainText (v : Value) : String :=
  v.number.plainText v.precision

end Reckoner.Value
