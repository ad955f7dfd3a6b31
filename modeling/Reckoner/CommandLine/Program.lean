import Reckoner.CommandLine.Interactive
import Reckoner.CommandLine.Script

/-!
The program as a whole: from its arguments and surroundings to its outcome.
-/

namespace Reckoner.CommandLine

/-- What a run can see of the world around it. -/
structure Surroundings where
  source : String → Source
  input : String := ""
  historyWritable : Bool := true
  /-- The calls that the stack has room for. -/
  stack : Nat := Machine.usualStack

/-- The script to be run, unless the interactive mode is asked for. An empty path is no script. -/
def Options.scriptPath? (o : Options) : Option String :=
  match o.script with
  | some path => if o.interactive || path.isEmpty then none else some path
  | none => none

/-- Run the program. -/
def run (args : List String) (world : Surroundings) : Except Abort Outcome :=
  match readOptions args with
  | .error stop => stop.outcome
  | .ok options =>
    match options.scriptPath? with
    | some path => Script.outcome world.stack options path (world.source path)
    | none => Interactive.outcome world.stack options.settings world.historyWritable world.input

end Reckoner.CommandLine
