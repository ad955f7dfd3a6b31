import Reckoner.Text.Blank
import Reckoner.Text.DecimalDigit

/-!
Integers as they are written: an optional sign and digits of any script. Blanks may stand around them,
and single underscores between the digits.
-/

namespace Reckoner.Text

/-- Digits in groups joined by single underscores. -/
def joinedDigits? : List Char → Option (List Char)
  | [] => none
  | [c] => if isDigit c then some [c] else none
  | c :: '_' :: rest => if isDigit c then (joinedDigits? rest).map (c :: ·) else none
  | c :: rest => if isDigit c then (joinedDigits? rest).map (c :: ·) else none

/-- The digits of an integer, and whether it has a minus. -/
structure SignedDigits where
  negative : Bool
  digits : List Char

namespace SignedDigits

def read? (cs : List Char) : Option SignedDigits :=
  let (negative, body) := splitSign (trimChars cs)
  (joinedDigits? body).map fun digits => ⟨negative, digits⟩

def value (n : SignedDigits) : Int :=
  let size : Int := digitsToNat n.digits
  if n.negative then -size else size

end SignedDigits

/-- The most digits of an integer that is read as a whole. -/
def maxIntegerDigits : Nat := 4300

/-- The integer that a text denotes. -/
def integer? (cs : List Char) : Option Int := do
  let n ← SignedDigits.read? cs
  if maxIntegerDigits < n.digits.length then none else some n.value

end Reckoner.Text
