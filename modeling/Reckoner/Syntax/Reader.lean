import Reckoner.Syntax.Expectation
import Reckoner.Text.Blank

/-!
Readers: functions from a text to a value and the rest of the text. A reader that does not match tells
where it stopped and what it expected there; of several alternatives the one that got farthest speaks
for all. Some causes abandon reading at once, whatever alternatives are left.
-/

namespace Reckoner

/-- Where a reader stopped, given by the text from there on, and what it expected. -/
structure Mismatch where
  rest : List Char
  expected : Expectation
  deriving DecidableEq, Repr

/-- Why reading is given up at once. -/
inductive Abandonment where
  | malformedNumber (text : String)
  | tooDeep
  deriving DecidableEq, Repr

/-- What a reader makes of a text. -/
inductive Reading (α : Type) where
  | matched (value : α) (rest : List Char)
  | mismatched (m : Mismatch)
  | abandoned (a : Abandonment)

def Reader (α : Type) := List Char → Reading α

namespace Reader
open Text

instance : Monad Reader where
  pure a := fun s => .matched a s
  bind r f := fun s =>
    match r s with
    | .matched a rest => f a rest
    | .mismatched m => .mismatched m
    | .abandoned a => .abandoned a

/-- The mismatch that got farther, the first of two that got equally far. -/
def farther (a b : Mismatch) : Mismatch :=
  if b.rest.length < a.rest.length then b else a

/-- The first reader, or the second if the first does not match. -/
def either {α : Type} (first second : Reader α) : Reader α := fun s =>
  match first s with
  | .mismatched a =>
    match second s with
    | .mismatched b => .mismatched (farther a b)
    | o => o
  | o => o

/-- Word the mismatch of a reader that got nowhere. -/
def orExpect {α : Type} (r : Reader α) (e : Expectation) : Reader α := fun s =>
  match r s with
  | .mismatched m =>
    .mismatched (if m.rest.length = (skipLayout s).length then ⟨m.rest, e⟩ else m)
  | o => o

/-- Match as often as possible, at most so many times. -/
def manyUpTo {α : Type} (r : Reader α) : Nat → Reader (List α)
  | 0 => pure []
  | n + 1 => fun s =>
    match r s with
    | .matched a rest => (do return a :: (← manyUpTo r n)) rest
    | .mismatched _ => .matched [] s
    | .abandoned a => .abandoned a

/-- Match as often as possible. A reader that consumes at least a character each time matches no more
often than there are characters, and is tried once more after that. -/
def many {α : Type} (r : Reader α) : Reader (List α) := fun s =>
  manyUpTo r (s.length + 1) s

/-- A reader that may be missing. -/
def optional {α : Type} (r : Reader α) : Reader (Option α) := fun s =>
  match r s with
  | .matched a rest => .matched (some a) rest
  | .mismatched _ => .matched none s
  | .abandoned a => .abandoned a

/-- A character after layout. -/
def token (c : Char) : Reader Unit := fun s =>
  match skipLayout s with
  | [] => .mismatched ⟨[], .token c⟩
  | d :: rest => if d = c then .matched () rest else .mismatched ⟨d :: rest, .token c⟩

/-- One of several characters after layout. -/
def oneOf (cs : List Char) : Reader Char := fun s =>
  match skipLayout s with
  | [] => .mismatched ⟨[], .operand⟩
  | d :: rest => if d ∈ cs then .matched d rest else .mismatched ⟨d :: rest, .operand⟩

/-- Nothing but layout is left. -/
def endOfText : Reader Unit := fun s =>
  match skipLayout s with
  | [] => .matched () []
  | rest => .mismatched ⟨rest, .endOfText⟩

/-- Items with commas between them, or none. There is a reader for the first and one for those behind it. -/
def commaSeparated {α : Type} (first other : Reader α) : Reader (List α) := do
  match ← optional first with
  | none => return []
  | some a => return a :: (← many (do token ','; other))

end Reader

end Reckoner
