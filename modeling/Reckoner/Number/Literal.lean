import Reckoner.Number.DecimalScale
import Reckoner.Text.Integer

/-!
Numbers from text: a decimal literal with an optional sign, point and exponent, or one of the words
for the infinities and the undefined value. The value is rounded once.
-/

namespace Reckoner.Number
open Text

/-- A decimal literal, `± digits · 10 ^ exponent`. -/
structure Literal where
  negative : Bool
  digits : List Char
  exponent : Int

def isExponentMark (c : Char) : Bool :=
  c == 'e' || c == 'E'

/-- The exponent that a text ends with; without a mark it is zero. -/
def exponent? : List Char → Option Int
  | [] => some 0
  | _ :: cs => integer? cs

/-- The part before a point, which is a zero if nothing stands there, and the part after it without
zeros at its end. -/
def splitPoint (cs : List Char) : List Char × List Char :=
  let whole := cs.takeWhile (· ≠ '.')
  match cs.dropWhile (· ≠ '.') with
  | [] => (whole, [])
  | _ :: fraction =>
    (if whole.isEmpty then ['0'] else whole, (fraction.reverse.dropWhile (· = '0')).reverse)

/-- Read a literal. Without the point it is an integer, which a sign alone is not. -/
def Literal.read? (cs : List Char) : Option Literal := do
  let exponent ← exponent? (cs.dropWhile fun c => !isExponentMark c)
  let (whole, fraction) := splitPoint (cs.takeWhile fun c => !isExponentMark c)
  let ⟨negative, digits⟩ ← SignedDigits.read? (whole ++ fraction)
  return ⟨negative, digits, exponent - fraction.length⟩

/-- The value of a literal, rounded to the precision. -/
def Literal.value (p : Nat) (l : Literal) : Number :=
  let n := digitsToNat l.digits
  let size := Binary.timesPowerOfTen p (.ofInt n) l.exponent
  .finite (if n = 0 then 0 else if l.negative then -size else size)

/-- The values with a name, which may be written in any letter case. -/
def named? (cs : List Char) : Option Number :=
  let word := String.ofList (cs.map Char.toLower)
  if word = "inf" ∨ word = "+inf" then some (.infinite false)
  else if word = "-inf" then some (.infinite true)
  else if word = "nan" then some .undefined
  else none

/-- The number that a text denotes, blanks around it aside. -/
def ofText? (p : Nat) (text : List Char) : Option Number :=
  let cs := trimChars text
  (named? cs).or ((Literal.read? cs).map (Literal.value p))

/-- The number that a text denotes, or the error that names the text. -/
def parse (p : Nat) (text : String) : Except Error Number :=
  match ofText? p text.toList with
  | some n => .ok n
  | none => .error (.malformedNumber text)

end Reckoner.Number
