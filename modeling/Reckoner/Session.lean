import Reckoner.Evaluation
import Reckoner.Number.Expansion
import Reckoner.Scope.Listing
import Reckoner.Settings
import Reckoner.Syntax.Outline
import Reckoner.Syntax.Parse

/-!
Sessions: source text in, texts for display out, one scope carried along. A session knows the place of
its frame in a store that it shares with other sessions. The precision belongs to the context and
is set when a session is created; copies keep it whatever their settings say.
-/

namespace Reckoner

/-- A context with settings and the stack on which everything runs. -/
structure Session extends Context where
  settings : Settings
  /-- The calls that the stack has room for. -/
  stack : Nat
  deriving DecidableEq

/-- Why a session is not opened. -/
inductive Refusal where
  | outOfRange (fault : Settings.Fault)
  | failed (f : Failure)
  deriving DecidableEq, Repr

namespace Session
open Computation

def machine (s : Session) : Machine :=
  ⟨s.precision, s.stack⟩

/-- A session with an empty scope. -/
def start (stack : Nat) (settings : Settings) (store : Store) : Session × Store :=
  (⟨⟨settings.bits, store.size⟩, settings, stack⟩, store.add {})

/-- The settings themselves, if they are within range. -/
def validated (settings : Settings) : Except Refusal Settings :=
  settings.validate.mapError .outOfRange

/-- Start a session if its settings are within range. -/
def create (stack : Nat) (settings : Settings) (store : Store) : Except Refusal (Session × Store) := do
  return start stack (← validated settings) store

/-- A session over a copied context, with settings of its own. -/
def overCopy (s : Session) (settings : Settings) (copied : Except Failure (Context × Store)) :
    Except Refusal (Session × Store) := do
  let (context, store) ← copied.mapError .failed
  return (⟨context, ← validated settings, s.stack⟩, store)

/-- A session over a clone of the context, with the same settings. -/
def fork (s : Session) (store : Store) : Except Refusal (Session × Store) :=
  s.overCopy s.settings (s.toContext.cloneWithin s.machine.copyingCalls store)

/-- A session over a context that was written down and read again, with settings of its own. -/
def transfer (s : Session) (settings : Settings) (store : Store) : Except Refusal (Session × Store) :=
  s.overCopy settings (s.toContext.pickleWithin s.machine.copyingCalls store)

/-- The text of a number, as the settings ask for it. It is rounded to the precision of the session first. -/
def format (s : Session) (v : Value) : Except Failure String :=
  (v.number.display s.precision s.settings.digits s.settings.threshold).mapError .unwritable

/-- Events are shown in debug mode only. -/
def shown (s : Session) (events : List Event) : List Event :=
  if s.settings.debug then events else []

/-- Parse one statement. -/
def parse (s : Session) (text : String) : Traced Statement :=
  match parseStatement s.machine text with
  | .error f => .fail f
  | .ok statement =>
    if s.settings.debug then
      match statement.shownOutline s.machine with
      | .ok outline => ⟨.ok statement, [.parsedStatement outline]⟩
      | .error f => .fail f
    else pure statement

/-- Parse a list of statements. -/
def parseAll (s : Session) (text : String) : Traced (List Statement) :=
  match parseProgram s.machine text with
  | .error f => .fail f
  | .ok statements => ⟨.ok statements, s.shown [.parsedProgram statements.length]⟩

/-- Nesting that exceeds the budget is an error of the language during evaluation. -/
def limited : Failure → Failure
  | .tooDeep => .error .recursionLimit
  | f => f

/-- Evaluate a statement. -/
def execute (s : Session) (statement : Statement) : Computation (Option Value) := fun store =>
  let (outcome, after) := statement.evaluate s.machine s.frame store
  (⟨outcome.result.mapError limited, s.shown outcome.trace⟩, after)

/-- The text shown for a statement that was evaluated: a definition shows its signature. -/
def resultText (s : Session) (statement : Statement) (value : Option Value) : Except Failure String :=
  match statement, value with
  | .define name params _, _ => .ok (signature name params)
  | _, some v => s.format v
  | _, none => .ok ""

/-- Errors of the language are results: their message. -/
def recover (c : Computation String) : Computation String := fun store =>
  let (outcome, after) := c store
  match outcome.result with
  | .error (.error e) => (⟨.ok e.message, outcome.trace⟩, after)
  | _ => (outcome, after)

/-- Evaluate a statement and show its result. -/
def answer (s : Session) (statement : Statement) : Computation String := do
  let value ← s.execute statement
  lift ⟨s.resultText statement value, []⟩

/-- Parse and evaluate one statement. -/
def run (s : Session) (text : String) : Computation String :=
  recover do
    let statement ← lift (s.parse text)
    s.answer statement

/-- Evaluate statements one after another; one that fails does not stop the others. -/
def answerAll (s : Session) : List Statement → Computation (List String)
  | [] => pure []
  | statement :: rest => do
    let text ← recover (s.answer statement)
    return text :: (← answerAll s rest)

/-- Parse a list of statements and evaluate each. A text that does not parse gives one message. -/
def runAll (s : Session) (text : String) : Computation (List String) :=
  let parsed := s.parseAll text
  match parsed.result with
  | .error (.error e) => lift ⟨.ok [e.message], parsed.trace⟩
  | _ => do
    let statements ← lift parsed
    s.answerAll statements

/-- Parse and evaluate one statement, keeping its value. -/
def executeText (s : Session) (text : String) : Computation (Option Value) := do
  let statement ← lift (s.parse text)
  s.execute statement

/-- The parameters that a listing shows. -/
def paramsOf : Function → List String
  | .closure _ params _ _ => params
  | .tagged _ => []

/-- The lines that list the bindings of the session; there may be none for a number. -/
def environmentLines (s : Session) (store : Store) : List (Except Failure String) :=
  let values := store.visibleValues s.frame
  let functions := store.visibleFunctions s.frame
  if values.isEmpty && functions.isEmpty then [.ok "  (no user-defined bindings)"]
  else
    values.map (fun (name, v) => ("  " ++ name ++ " = " ++ ·) <$> s.format v)
      ++ functions.map fun (name, f) => .ok ("  " ++ signature name (paramsOf f))

/-- The lines before the first that fails, and how that one does. -/
def linesShown : List (Except Failure String) → List String × Except Failure Unit
  | [] => ([], .ok ())
  | .ok line :: rest =>
    let (lines, outcome) := linesShown rest
    (line :: lines, outcome)
  | .error f :: _ => ([], .error f)

/-- The words of the interactive mode. -/
def commandWords : List String :=
  [":parse", ":env", ":help", "exit"]

/-- The completions of a word: commands, builtins and bound names that start with it. -/
def completions (s : Session) (store : Store) (word : String) : List String :=
  let names := commandWords ++ Builtin.all.map Builtin.name
    ++ (store.visibleValues s.frame).map Prod.fst ++ (store.visibleFunctions s.frame).map Prod.fst
  names.filter fun name => word.toList.isPrefixOf name.toList

end Session

end Reckoner
