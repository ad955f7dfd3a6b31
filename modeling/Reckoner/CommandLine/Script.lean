import Reckoner.CommandLine.Outcome
import Reckoner.CommandLine.Source
import Reckoner.Session

/-!
Script mode: all statements of a source are parsed, then either evaluated one after another, with a line
for each, or shown as outlines.
-/

namespace Reckoner.CommandLine

namespace Script

/-- The outcome when a script cannot be run, which shows why. -/
def refusal (shown : String) : Failure → Except Abort Outcome
  | .error e => .ok { shown := shown ++ e.message ++ "\n", status := 1 }
  | f => .error (.failed f)

/-- The line shown for a statement that was evaluated: one without a value has defined a function. -/
def line (s : Session) (statement : Statement) (value : Option Value) : Except Failure String :=
  match value, statement with
  | some v, _ => (· ++ "\n") <$> s.format v
  | none, .define name params _ => .ok s!"Defined function: {signature name params}\n"
  | none, _ => .ok "\n"

/-- Evaluate statements one after another. An error is shown in the place of a result. -/
def evaluate (s : Session) (store : Store) : List Statement → Except Abort Outcome
  | [] => .ok {}
  | statement :: rest => do
    let (outcome, after) := s.execute statement store
    let events := traceText outcome.trace
    match outcome.result with
    | .ok value =>
      let shown ← (line s statement value).mapError .failed
      let others ← evaluate s after rest
      return { others with shown := events ++ shown ++ others.shown }
    | .error f =>
      let others ← evaluate s after rest
      return { others with shown := events ++ f.message ++ "\n" ++ others.shown, status := 1 }

/-- Show the outlines of statements, counted from the given number. -/
def outlines (m : Machine) : Nat → List Statement → Except Failure String
  | _, [] => .ok ""
  | i, statement :: rest => do
    return s!"\nStatement {i}:\n" ++ (← statement.shownOutline m) ++ (← outlines m (i + 1) rest)

def rule : String :=
  String.ofList (List.replicate 50 '=')

/-- Parse a source and show its statements. -/
def showOutlines (stack : Nat) (settings : Settings) (path : String) (source : Source) :
    Except Abort Outcome :=
  match source.text path with
  | .error e => refusal "" (.error e)
  | .ok text =>
    let (s, _) := Session.start stack settings .empty
    let parsed := s.parseAll text
    let events := traceText parsed.trace
    match parsed.result with
    | .error f => refusal events f
    | .ok statements =>
      let title := events ++ s!"Parsed {statements.length} statements:\n" ++ rule ++ "\n"
      match outlines s.machine 1 statements with
      | .error f => refusal title f
      | .ok shown => .ok { shown := title ++ shown }

/-- Parse a source and evaluate its statements. -/
def run (stack : Nat) (settings : Settings) (path : String) (source : Source) : Except Abort Outcome :=
  match source.text path with
  | .error e => refusal "" (.error e)
  | .ok text =>
    let (s, store) := Session.start stack settings .empty
    let parsed := s.parseAll text
    let events := traceText parsed.trace
    match parsed.result with
    | .error (.error e) => refusal (events ++ s!"In '{path}':\n") (.error e)
    | .error f => refusal events f
    | .ok statements => do
      let evaluated ← evaluate s store statements
      return { evaluated with shown := events ++ evaluated.shown }

/-- Treat the source under a path as the options ask for. -/
def outcome (stack : Nat) (o : Options) (path : String) : Source → Except Abort Outcome
  | .missing => .ok { shown := s!"Error: Script file '{path}' does not exist\n", status := 1 }
  | .nameTooLong => .error .nameTooLong
  | source =>
    if o.outline then showOutlines stack o.settings path source else run stack o.settings path source

end Script

end Reckoner.CommandLine
