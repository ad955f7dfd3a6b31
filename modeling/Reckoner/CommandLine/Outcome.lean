import Reckoner.CommandLine.Options
import Reckoner.CommandLine.Usage
import Reckoner.Failure

/-!
Outcomes: what a run of the program shows, what it remarks on the side, and its exit status. A run may
also break off without an outcome.
-/

namespace Reckoner.CommandLine

/-- Why a run breaks off. -/
inductive Abort where
  /-- A failure where nothing reports it. -/
  | failed (f : Failure)
  /-- A switch is left without its value. -/
  | valueless (s : Switch)
  /-- The path of the script is too long, or one of the names in it. -/
  | nameTooLong
  deriving DecidableEq, Repr

def Abort.message : Abort → String
  | failed f => f.message
  | valueless s => s!"{s.label} has no value"
  | nameTooLong => "file name too long"

/-- A remark on the error channel. -/
inductive Remark where
  | misuse (message : String)
  /-- A failure that is reported in full. -/
  | failed (f : Failure)
  | historyNotSaved
  deriving DecidableEq, Repr

def Remark.text : Remark → String
  | misuse message => misuseText message
  | failed f => f.message ++ "\n"
  | historyNotSaved => "Could not save history: [Errno 2] No such file or directory\n"

/-- What stands on the error channel after some remarks. -/
def remarked (remarks : List Remark) : String :=
  String.join (remarks.map Remark.text)

structure Outcome where
  shown : String := ""
  remarks : List Remark := []
  status : Nat := 0

/-- The outcome when the arguments leave nothing to run. -/
def Stop.outcome : Stop → Except Abort Outcome
  | help => .ok { shown := helpText }
  | version => .ok { shown := versionText ++ "\n" }
  | misuse message => .ok { remarks := [.misuse message], status := 2 }
  | valueless s => .error (.valueless s)

end Reckoner.CommandLine
