import Reckoner.Diagnostic

/-!
Errors: the reasons why a statement yields no value, and the text shown for each of them.
-/

namespace Reckoner

inductive Error where
  /-- No frame and no builtin has the name. -/
  | unbound (name : String)
  /-- The innermost frame has the name already, or a builtin function has it. -/
  | alreadyBound (name : String)
  /-- A function was called with the wrong number of arguments. -/
  | arity (expected found : Int) (function : Option String)
  /-- A text is no number. -/
  | malformedNumber (text : String)
  /-- The host could not read or write. -/
  | io (detail : String)
  | divisionByZero
  /-- An operation left the real line. -/
  | notReal (operation : String)
  /-- Evaluation was nested too deeply. -/
  | recursionLimit
  | unparsable (diagnostic : Diagnostic)
  /-- A malformed tree. -/
  | malformedTree (detail : String)
  deriving DecidableEq, Repr

namespace Error

/-- The text of an error other than a diagnostic, without the word that introduces it. -/
def detail : Error → String
  | unbound name => s!"Name not found: \"{name}\""
  | alreadyBound name => s!"Name already bound: \"{name}\""
  | arity expected found _ => s!"Expected {expected} arguments, found {found}"
  | malformedNumber text => s!"Number parsing error: \"{text}\""
  | io detail => if detail.isEmpty then "IO error" else s!"IO error: {detail}"
  | divisionByZero => "Division by zero"
  | notReal operation => s!"Result of \"{operation}\" is not a real number"
  | recursionLimit => "Recursion limit reached"
  | unparsable d => d.message
  | malformedTree detail => detail

def message : Error → String
  | unparsable d => d.message
  | e => "ERROR: " ++ e.detail

end Error

end Reckoner
