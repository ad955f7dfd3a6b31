import Reckoner.Decimal.Digits
import Reckoner.Text.Integer

/-!
The written form of a decimal mantissa `0.d₁d₂d₃… · 10 ^ exponent`. Trailing zeros are dropped first;
an exponent beyond the threshold is written out, any other is expressed by the place of the point. There
is a limit to the digits of an exponent, and one to the zeros.
-/

namespace Reckoner.Decimal

def dropTrailingZeros (ds : List Int) : List Int :=
  (ds.reverse.dropWhile (· = 0)).reverse

def zeros (n : Nat) : List Char :=
  List.replicate n '0'

def integerText (n : Int) : List Char :=
  (toString n).toList

/-- One digit before the point, at least one after it, and the exponent. -/
def scientific (ds : List Int) (exponent : Int) : List Char :=
  let fraction := match ds.drop 1 with
    | [] => ['0']
    | rest => digitsText rest
  digitsText (ds.take 1) ++ '.' :: fraction ++ 'e' :: integerText (exponent - 1)

/-- No exponent: zeros fill the places between the digits and the point. -/
def plain (ds : List Int) (exponent : Int) : List Char :=
  if ds.length ≤ exponent then digitsText ds ++ zeros (exponent - ds.length).toNat
  else if exponent ≤ 0 then '0' :: '.' :: zeros exponent.natAbs ++ digitsText ds
  else digitsText (ds.take exponent.toNat) ++ '.' :: digitsText (ds.drop exponent.toNat)

/-- The number of zeros between the digits and the point. -/
def padding (ds : List Int) (exponent : Int) : Nat :=
  if ds.length ≤ exponent then (exponent - ds.length).toNat
  else if exponent ≤ 0 then exponent.natAbs
  else 0

/-- The least integer that has too many digits to be written. -/
def exponentLimit : Nat :=
  Nat.pow 10 Text.maxIntegerDigits

/-- The most places of a text. -/
def maxTextLength : Nat :=
  Nat.pow 2 63 - 1

/-- What keeps digits from being written with an exponent or without one, as the threshold wants it. -/
def limit? (ds : List Int) (exponent threshold : Int) : Option Fault :=
  if threshold < exponent.natAbs then
    if exponentLimit ≤ (exponent - 1).natAbs then some .longExponent else none
  else if maxTextLength < padding ds exponent then some .tooManyZeros
  else none

/-- The written form. A mantissa without a significant digit has none, nor has one beyond the limits. -/
def layout (negative : Bool) (ds : List Int) (exponent threshold : Int) : Except Fault String :=
  match dropTrailingZeros ds with
  | [] => .error .allZero
  | significant =>
    match limit? significant exponent threshold with
    | some fault => .error fault
    | none =>
      let body := if threshold < exponent.natAbs then scientific significant exponent
        else plain significant exponent
      .ok (String.ofList (if negative then '-' :: body else body))

end Reckoner.Decimal
