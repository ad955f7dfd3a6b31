/-!
Lines and columns of a source text. Lines are separated by line feeds and counted from one, columns
count code points from one, and tabs are widened to the next multiple of eight before counting.
-/

namespace Reckoner.Text

/-- The lines of a text without their line feeds; a text of `n` line feeds has `n + 1` lines. -/
def lines : List Char → List (List Char)
  | [] => [[]]
  | c :: cs =>
    if c = '\n' then [] :: lines cs
    else match lines cs with
      | [] => [[c]]
      | l :: ls => (c :: l) :: ls

/-- Widen tabs, the first character standing in the given column (from zero).
Both line feed and carriage return start a new count. -/
def expandTabsFrom : Nat → List Char → List Char
  | _, [] => []
  | column, c :: cs =>
    if c = '\t' then
      let width := 8 - column % 8
      List.replicate width ' ' ++ expandTabsFrom (column + width) cs
    else if c = '\n' ∨ c = '\r' then
      c :: expandTabsFrom 0 cs
    else
      c :: expandTabsFrom (column + 1) cs

def expandTabs (cs : List Char) : List Char :=
  expandTabsFrom 0 cs

/-- How many characters lie before an offset. A negative offset counts from the end,
and offsets outside the text are moved to its nearest end. -/
def clipOffset (length : Nat) (offset : Int) : Nat :=
  if offset < 0 then (length + offset).toNat else min offset.toNat length

/-- The line that holds the given offset. -/
def lineAt (cs : List Char) (offset : Int) : Int :=
  1 + (cs.take (clipOffset cs.length offset)).count '\n'

/-- The column of the given offset: its distance from the last line feed before it. -/
def columnAt (cs : List Char) (offset : Int) : Int :=
  let before := cs.take (clipOffset cs.length offset)
  let lineStart : Int := before.length - (before.reverse.takeWhile (· ≠ '\n')).length
  offset + 1 - lineStart

/-- End every line with a single line feed: a carriage return, alone or before a line feed, becomes one. -/
def unifyLineEnds : List Char → List Char
  | '\r' :: '\n' :: cs => '\n' :: unifyLineEnds cs
  | '\r' :: cs => '\n' :: unifyLineEnds cs
  | c :: cs => c :: unifyLineEnds cs
  | [] => []

end Reckoner.Text
