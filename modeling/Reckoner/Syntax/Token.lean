import Reckoner.Syntax.Reader
import Reckoner.Text.DecimalDigit

/-!
The tokens with a variable form: names and numerals. A name is as long as possible, so that operators
next to it belong to it.
-/

namespace Reckoner
open Text

/-- The marks that are never part of a name. -/
def isMark (c : Char) : Bool :=
  c ∈ ['(', ')', '\x7b', '\x7d', '"', ';', ',']

def isNameChar (c : Char) : Bool :=
  !isMark c && !isBlank c

/-- A name does not start with a digit. -/
def isNameStart (c : Char) : Bool :=
  isNameChar c && !isDigit c

/-- A name at the start of a text, and the rest. -/
def splitName? : List Char → Option (List Char × List Char)
  | [] => none
  | c :: cs =>
    if isNameStart c then some (c :: cs.takeWhile isNameChar, cs.dropWhile isNameChar) else none

/-- Digits at the start of a text, and the rest. -/
def splitDigits (cs : List Char) : List Char × List Char :=
  (cs.takeWhile isDigit, cs.dropWhile isDigit)

/-- A sign at the start of a text, if there is one, and the rest. -/
def takeSign : List Char → List Char × List Char
  | c :: cs => if c = '+' ∨ c = '-' then ([c], cs) else ([], c :: cs)
  | [] => ([], [])

/-- Digits with a fraction that may be missing, or a fraction alone, which has digits. -/
def splitMantissa? (cs : List Char) : Option (List Char × List Char) :=
  match splitDigits cs with
  | ([], '.' :: rest) =>
    match splitDigits rest with
    | ([], _) => none
    | (fraction, rest) => some ('.' :: fraction, rest)
  | ([], _) => none
  | (whole, '.' :: rest) =>
    let (fraction, rest) := splitDigits rest
    some (whole ++ '.' :: fraction, rest)
  | (whole, rest) => some (whole, rest)

/-- An exponent with at least one digit, if there is one, and the rest. -/
def splitExponent (cs : List Char) : List Char × List Char :=
  match cs with
  | mark :: rest =>
    if mark = 'e' ∨ mark = 'E' then
      let (sign, rest) := takeSign rest
      match splitDigits rest with
      | ([], _) => ([], cs)
      | (ds, rest) => (mark :: sign ++ ds, rest)
    else ([], cs)
  | [] => ([], [])

/-- A numeral at the start of a text, and the rest. -/
def splitNumeral? (cs : List Char) : Option (List Char × List Char) := do
  let (sign, rest) := takeSign cs
  let (mantissa, rest) ← splitMantissa? rest
  let (exponent, rest) := splitExponent rest
  return (sign ++ mantissa ++ exponent, rest)

namespace Reader

/-- A token after layout, given by how it is split from a text. -/
def split (splitting : List Char → Option (List Char × List Char)) (e : Expectation) :
    Reader String := fun s =>
  let s := skipLayout s
  match splitting s with
  | some (text, rest) => .matched (String.ofList text) rest
  | none => .mismatched ⟨s, e⟩

def name : Reader String :=
  split splitName? .name

def numeral : Reader String :=
  split splitNumeral? .numeral

end Reader

end Reckoner
