import Reckoner.CommandLine.Outcome
import Reckoner.Session
import Reckoner.Text.Blank
import Reckoner.Text.Lines

/-!
Interactive mode: a prompt for each line, and the answer to it. A line is a command or one statement,
whose semicolon may be left out.
-/

namespace Reckoner.CommandLine
open Text

namespace Interactive

/-- A statement without the blanks around it and with its semicolon. -/
def terminate (text : String) : String :=
  let statement := trim text
  if statement.toList.getLast? = some ';' then statement else statement ++ ";"

def prompt : String := "calc> "

def greeting (settings : Settings) : String :=
  textOfLines ([versionText ++ " - Interactive Mode", "Type 'exit' to quit, ':help' for commands"]
    ++ (if settings.debug then ["Debug mode enabled"] else []) ++ [""])

def farewell : String := "\nGoodbye!\n"

def commandHelp : String :=
  textOfLines [
    "REPL Commands:",
    "  :parse <stmt>     - Show parsed AST",
    "  :env              - Show current bindings",
    "  :help             - Show this help",
    "  exit              - Exit REPL",
    "",
    "Language features:",
    "  x = 5             - Value binding (once per scope)",
    "  f(x, y) = x * y   - Function definition",
    "  f(2, 3) ^ 2       - Call and exponentiation",
    "  \x7b a = 2; a * a \x7d  - Block with its own scope",
    "  Builtins: " ++ ", ".intercalate (Builtin.all.map Builtin.name),
    "  Separate operators from names with spaces: a + b, not a+b"]

/-- What a line asks for. -/
inductive Request where
  | leave
  | nothing
  | help
  | environment
  | outline (statement : String)
  | statement (text : String)
  deriving DecidableEq, Repr

def outlineCommand : String := ":parse "

/-- Read a line. Blanks around it do not count. -/
def Request.ofLine (line : String) : Request :=
  let text := trim line
  if text = "exit" ∨ text = "exit;" then .leave
  else if text.isEmpty then .nothing
  else if text = ":help" then .help
  else if text = ":env" then .environment
  else if outlineCommand.toList.isPrefixOf text.toList then
    .outline (terminate (String.ofList (text.toList.drop outlineCommand.length)))
  else .statement (terminate text)

/-- How it goes on after an answer. -/
inductive Next where
  | proceed (store : Store)
  | leave
  | abort (f : Failure)

/-- What is shown and remarked for a line, and how it goes on. -/
structure Answer where
  shown : String := ""
  remarks : List Remark := []
  next : Next

def outlineAnswer (s : Session) (store : Store) (statement : String) : Answer :=
  let parsed := s.parse statement
  let events := traceText parsed.trace
  match parsed.result >>= (·.shownOutline s.machine) with
  | .ok outline => { shown := events ++ outline, next := .proceed store }
  | .error (.error e) => { shown := events ++ e.message ++ "\n", next := .proceed store }
  | .error f => { shown := events, next := .abort f }

def statementAnswer (s : Session) (store : Store) (text : String) : Answer :=
  let (outcome, after) := s.run text store
  let events := traceText outcome.trace
  match outcome.result with
  | .ok result => { shown := events ++ result ++ "\n", next := .proceed after }
  | .error f =>
    { shown := events ++ s!"Unexpected error: {f.message}\n"
      remarks := if s.settings.debug then [.failed f] else []
      next := .proceed after }

def environmentAnswer (s : Session) (store : Store) : Answer :=
  match Session.linesShown (s.environmentLines store) with
  | (lines, .ok ()) => { shown := textOfLines lines, next := .proceed store }
  | (lines, .error f) => { shown := textOfLines lines, next := .abort f }

/-- Answer a request. -/
def answer (s : Session) (store : Store) : Request → Answer
  | .leave => { next := .leave }
  | .nothing => { next := .proceed store }
  | .help => { shown := commandHelp, next := .proceed store }
  | .environment => environmentAnswer s store
  | .outline statement => outlineAnswer s store statement
  | .statement text => statementAnswer s store text

/-- Answer lines until one leaves or none is left. -/
def converse (s : Session) (store : Store) : List String → Except Abort Outcome
  | [] => .ok { shown := prompt ++ farewell }
  | line :: rest => do
    let a := answer s store (.ofLine line)
    let shown := prompt ++ a.shown
    match a.next with
    | .leave => return { shown, remarks := a.remarks }
    | .abort f => throw (.failed f)
    | .proceed store =>
      let others ← converse s store rest
      return { others with shown := shown ++ others.shown, remarks := a.remarks ++ others.remarks }

/-- The lines of an input. A line feed at the very end begins no further line. -/
def inputLines (input : String) : List String :=
  let all := lines input.toList
  let filled := if all.getLast? = some [] then all.dropLast else all
  filled.map String.ofList

/-- A whole conversation. The history is saved at its end, however it ends. -/
def outcome (stack : Nat) (settings : Settings) (historyWritable : Bool) (input : String) :
    Except Abort Outcome := do
  let (s, store) := Session.start stack settings .empty
  let talk ← converse s store (inputLines input)
  return { talk with
    shown := greeting settings ++ talk.shown
    remarks := talk.remarks ++ (if historyWritable then [] else [.historyNotSaved]) }

end Interactive

end Reckoner.CommandLine
