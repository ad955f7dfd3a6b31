/-!
Decimal digits of natural numbers, the most significant first, and what can be wrong with a list of
digits.
-/

namespace Reckoner.Decimal

inductive Fault where
  /-- A digit was asked for at a place that the list does not have. -/
  | outOfRange
  /-- No digit differs from zero. -/
  | allZero
  /-- An exponent has more digits than an integer is written with. -/
  | longExponent
  /-- There are more zeros to write than a text has places. -/
  | tooManyZeros
  deriving DecidableEq, Repr

def Fault.message : Fault → String
  | outOfRange => "no digit at this place"
  | allZero => "cannot format an all-zero mantissa"
  | longExponent => "Exceeds the limit (4300 digits) for integer string conversion; use "
      ++ "sys.set_int_max_str_digits() to increase the limit"
  | tooManyZeros => "cannot fit 'int' into an index-sized integer"

/-- The digits of a number in front of digits already known. -/
def digitsBefore (n : Nat) (tail : List Nat) : List Nat :=
  if n < 10 then n :: tail else digitsBefore (n / 10) (n % 10 :: tail)
termination_by n

/-- The digits of a number without leading zeros; zero has the single digit zero. -/
def digits (n : Nat) : List Nat :=
  digitsBefore n []

/-- The number that digits write. -/
def value (ds : List Int) : Int :=
  ds.foldl (fun n d => 10 * n + d) 0

/-- The character of a digit: the one that follows zero at the digit's distance. -/
def digitChar (d : Int) : Char :=
  Char.ofNat (d + '0'.toNat).toNat

def digitsText (ds : List Int) : List Char :=
  ds.map digitChar

end Reckoner.Decimal
