import Reckoner.Decimal.Digits
import Reckoner.Error

/-!
Failures: all that can end the processing of a statement. Besides the errors of the language there are
the exhaustion of a nesting budget, numbers that no text can hold and faults that only trees of foreign
making can cause.
-/

namespace Reckoner

inductive Failure where
  | error (e : Error)
  /-- Nesting exceeded its budget. -/
  | tooDeep
  /-- A binary operator that is none of the five. -/
  | unknownOperator (op : String)
  /-- A function bound to a plain text was called. -/
  | notCallable (name : String)
  /-- A number could not be written. -/
  | unwritable (fault : Decimal.Fault)
  deriving DecidableEq, Repr

/-- The text that reports a failure. -/
def Failure.message : Failure → String
  | error e => e.message
  | tooDeep => "maximum recursion depth exceeded"
  | unknownOperator op => s!"unknown operator: {op}"
  | notCallable name => s!"not a function: {name}"
  | unwritable fault => fault.message

/-- Lift a computation that can only fail with an error. -/
def Failure.lift {α : Type} : Except Error α → Except Failure α
  | .ok a => .ok a
  | .error e => .error (.error e)

end Reckoner
