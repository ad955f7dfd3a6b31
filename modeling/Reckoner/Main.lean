import Reckoner.CommandLine.Program

/-!
The command line: reads arguments, the script or standard input, and writes what the program shows.
-/

namespace Reckoner.CommandLine

/-- What stands under a path on this machine. -/
def sourceAt (path : String) : IO Source := do
  try
    return .file (← IO.FS.readBinFile path).toList
  catch
    | .inappropriateType .. => return .directory
    | _ => return .missing

def write (shown : String) (remarks : List Remark) : IO Unit := do
  let out ← IO.getStdout
  out.putStr shown
  out.flush
  (← IO.getStderr).putStr (remarked remarks)

/-- Say why a run breaks off, and leave. -/
def breakOff (a : Abort) : IO UInt32 := do
  (← IO.getStderr).putStrLn a.message
  return 1

/-- Write an outcome and leave with its status. -/
def finish : Except Abort Outcome → IO UInt32
  | .error a => breakOff a
  | .ok o => do
    write o.shown o.remarks
    return o.status.toUInt32

/-- Answer lines of standard input until one leaves or the input ends. -/
partial def converseLive (s : Session) (store : Store) : IO UInt32 := do
  write Interactive.prompt []
  let line ← (← IO.getStdin).getLine
  if line.isEmpty then finish (.ok { shown := Interactive.farewell })
  else
    let a := Interactive.answer s store (.ofLine line)
    write a.shown a.remarks
    match a.next with
    | .proceed store => converseLive s store
    | .leave => return 0
    | .abort f => breakOff (.failed f)

def runLive (args : List String) : IO UInt32 := do
  match readOptions args with
  | .error stop => finish stop.outcome
  | .ok options =>
    match options.scriptPath? with
    | some path => finish (Script.outcome Machine.usualStack options path (← sourceAt path))
    | none =>
      write (Interactive.greeting options.settings) []
      let (s, store) := Session.start Machine.usualStack options.settings .empty
      converseLive s store

end Reckoner.CommandLine

def main (args : List String) : IO UInt32 :=
  Reckoner.CommandLine.runLive args
