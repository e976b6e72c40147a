import Subtyping.Command.Args
import Subtyping.Command.Program
import Subtyping.Log.Format

/-!
# The program

Reads the command line, the environment and the file, and writes what comes of them.
-/

namespace Subtyping

/-- What reading a path gives. -/
def readFile (path : String) : IO FileText := do
  try
    match String.fromUTF8? (← IO.FS.readBinFile path) with
    | some contents => return .text contents
    | none => return .notText
  catch
    | .noFileOrDirectory .. => return .missing
    | _ => return .directory

/-- Writes the log of a run, if the environment asks for one. -/
def writeLog (events : Array Event) : IO Unit := do
  match Log.select (← IO.getEnv "LISKOV_LOG") (← IO.getEnv "RUST_LOG") with
  | none => return
  | some directives =>
    let format := Log.Format.ofName ((← IO.getEnv "LISKOV_LOG_FORMAT").getD "")
    let runId := (← IO.getEnv "LISKOV_QUERY_RUN_ID").getD "default"
    for line in Log.complaints directives do
      IO.eprintln line
    for record in Log.filter directives runId events do
      IO.eprintln (format.write record)

/-- Writes what the program has to say and gives the status it ends with. -/
def deliver (result : Report.Result) : IO UInt32 := do
  writeLog result.events
  IO.print result.output
  if let some failure := result.failure then
    for line in failure.lines do
      IO.eprintln line
  return result.status.toUInt32

end Subtyping

open Subtyping in
def main (args : List String) : IO UInt32 := do
  match Command.ofArgs args with
  | .error usage => deliver usage.result
  | .ok command =>
    let color ← (← IO.getStdout).isTty
    deliver (command.execute color (← readFile command.action.file))
