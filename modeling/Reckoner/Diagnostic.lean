import Reckoner.Text.Blank
import Reckoner.Text.Lines

/-!
Diagnostics: where a text could not be parsed, what was expected there, what was found instead, and
the lines around the place with a caret under the column. Lines and columns count from one.
-/

namespace Reckoner

structure Diagnostic where
  location : Int := 0
  line : Int := 0
  column : Int := 0
  expected : List String := []
  found : Option String := none
  excerpt : Option String := none
  deriving DecidableEq, Repr

namespace Diagnostic
open Text

/-- A line number, right-aligned in four places, and the colon after it. -/
def lineLabel (n : Nat) : List Char :=
  let ds := (toString n).toList
  List.replicate (4 - ds.length) ' ' ++ ds ++ [':', ' ']

/-- The line with a caret under a column of the line displayed above it. -/
def caretLine (column : Int) : List Char :=
  List.replicate (6 + (column - 1).toNat) ' ' ++ ['^']

/-- A displayed line, followed by the caret if it is the one that is pointed at. -/
def displayLine (line column : Int) (index : Nat) (text : List Char) : List (List Char) :=
  let labelled := lineLabel (index + 1) ++ text
  if (index : Int) = line - 1 then [labelled, caretLine column] else [labelled]

def joinLines (ls : List (List Char)) : List Char :=
  ['\n'].intercalate ls

/-- The lines at most `around` away from the given line, each behind its number, and the caret. -/
def excerptOf (source : List Char) (line column around : Int) : List Char :=
  let all := lines source
  let first := (line - around - 1).toNat
  let last := (min (all.length : Int) (line + around)).toNat
  let window := ((all.take last).drop first).zipIdx first
  joinLines (window.flatMap fun (text, index) => displayLine line column index text)

/-- What stands at a place: up to ten characters of the line without surrounding blanks. -/
def foundAt (source : List Char) (line column : Int) : String :=
  let all := lines source
  if 0 < line ∧ line ≤ all.length then
    let text := (all[(line - 1).toNat]?).getD []
    let shown := trimChars ((text.drop (column - 1).toNat).take 10)
    if shown.isEmpty then "end of input" else String.ofList ('\'' :: shown ++ ['\''])
  else "unknown"

/-- The characters after the given ones, if the text starts with them. -/
def after? : List Char → List Char → Option (List Char)
  | [], cs => some cs
  | k :: ks, c :: cs => if k = c then after? ks cs else none
  | _ :: _, [] => none

/-- A text of one line, a single line feed at its end not counted. -/
def singleLine? (cs : List Char) : Option (List Char) :=
  let body := cs.takeWhile (· ≠ '\n')
  if cs.length ≤ body.length + 1 then some body else none

/-- The last of two or more blanks, a line feed at the end not counted, unless it is a line feed too. -/
def lastBlank? (blanks : List Char) : Option (List Char) :=
  match blanks.reverse with
  | c :: d :: more =>
    if c ≠ '\n' then some [c] else if d ≠ '\n' ∧ !more.isEmpty then some [d] else none
  | _ => none

/-- The description that follows the word "Expected" and blanks. It stands on one line and has at least
one character, for which the last of several blanks serves if nothing else follows. -/
def describedBy? (message : List Char) : Option (List Char) := do
  let rest ← after? "Expected".toList message
  let blanks := rest.takeWhile isBlank
  match rest.dropWhile isBlank with
  | [] => lastBlank? blanks
  | body => if blanks.isEmpty then none else singleLine? body

/-- What a message says was expected: its description, or else the message itself. -/
def expectedBy (message : String) : List String :=
  match describedBy? message.toList with
  | some description => [String.ofList description]
  | none => if message.isEmpty then ["valid syntax"] else [message]

/-- The diagnostic for a location in a text, with excerpts cut from a source that may differ from it
in the width of its tabs. -/
def locate (text source : List Char) (location : Int) (expected : List String) : Diagnostic :=
  let line := lineAt text location
  let column := columnAt text location
  { location, line, column, expected
    found := some (foundAt source line column)
    excerpt := some (String.ofList (excerptOf source line column 1)) }

def message (d : Diagnostic) : String :=
  let part (label : String) (text : Option String) :=
    match text with
    | none | some "" => ""
    | some t => "\n" ++ label ++ t
  s!"ERROR: Parsing error at line {d.line}, column {d.column}"
    ++ (if d.expected.isEmpty then "" else "\n  Expected: " ++ ", ".intercalate d.expected)
    ++ part "  Got: " d.found ++ part "" d.excerpt

end Diagnostic

end Reckoner
