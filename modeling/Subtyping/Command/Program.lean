import Subtyping.Command.Basic
import Subtyping.Log.Directives
import Subtyping.Manifest.Load
import Subtyping.Report.Basic

/-!
# What the program does

The program reads a file, builds its universe, answers queries and writes a report. All of this is
a function of the command and of what reading the file gave; `Subtyping.Main` does the rest.
-/

namespace Subtyping

/-- What the program writes and how it ends. -/
structure Report.Result where
  output : String := ""
  status : Nat
  failure : Option Failure := none
  events : Array Event := #[]

namespace Action

def file : Action → String
  | check file _ _ _ => file
  | run file _ => file

/-- Does what is asked for with the contents of a file: gives the report, in colour if wanted, and
whether the answer is positive. -/
def perform (action : Action) (color : Bool) (maxDepth : Option Nat) (m : Manifest) :
    Attempt (String × Bool) := do
  Attempt.within (.buildingFile action.file) m.build
  let limits := m.limits maxDepth
  match action with
  | check _ source target json =>
    let outcome ← checkQuery limits source target
    let text := if json then outcome.toValue.pretty else Report.checkLine color outcome
    return (text, outcome.related)
  | run _ json =>
    let summary ← runQueries limits m
    let text := if json then summary.toValue.pretty else Report.runLines color summary
    return (text, summary.allPassed)

end Action

/-- Carries a command out. -/
def Command.execute (command : Command) (color : Bool) (file : FileText) : Report.Result :=
  match Manifest.load command.action.file file with
  | .error failure => { status := 1, failure := some failure }
  | .ok m =>
    let (result, chronicle) := (command.action.perform color command.maxDepth m).onFresh
    let events := chronicle.journal.events
    match result with
    | .error failure => { status := 1, failure := some failure, events }
    | .ok (text, positive) =>
      { output := text ++ "\n", status := if positive then 0 else 1, events }

/-! ## Failures as lines -/

/-- The lines of a text, the first after one margin and the others after another. -/
def indented (first other text : String) : List String :=
  match Text.split '\n' text with
  | [] => []
  | line :: lines => (first ++ line) :: lines.map (other ++ ·)

/-- A number flush right in five places. -/
def fivePlaces (n : Nat) : String :=
  let digits := toString n
  String.ofList (List.replicate (5 - digits.length) ' ') ++ digits

/-- A failure as lines: what failed, then why. -/
def Failure.lines (f : Failure) : List String :=
  match f.parts with
  | [] => []
  | outermost :: causes =>
    indented "Error: " "" outermost ++
      match causes with
      | [] => []
      | [cause] => ["", "Caused by:"] ++ indented "    " "    " cause
      | _ =>
        ["", "Caused by:"] ++
          causes.zipIdx.flatMap fun (cause, n) =>
            indented (fivePlaces n ++ ": ") "       " cause

/-! ## Usage -/

/-- The line that tells the version. -/
def versionLine : String := "liskov 0.1.0"

/-- What the program tells about itself. -/
def helpText : String :=
  "Check generic substitutability between declared types\n\n" ++
  "Usage: liskov [OPTIONS] <COMMAND>\n\n" ++
  "Commands:\n" ++
  "  check  Answer a single query: can SOURCE stand wherever TARGET is expected?\n" ++
  "  run    Evaluate every query listed in a universe file\n" ++
  "  help   Print this message or the help of the given subcommand(s)\n\n" ++
  "Options:\n" ++
  "      --max-depth <MAX_DEPTH>  Maximum nesting of recursive substitution checks\n" ++
  "  -h, --help                   Print help\n" ++
  "  -V, --version                Print version"

/-- What is written for a command line that gives no command. -/
def Usage.result (usage : Usage) : Report.Result :=
  match usage with
  | .help => { output := helpText ++ "\n", status := usage.exitCode }
  | .version => { output := versionLine ++ "\n", status := usage.exitCode }
  | _ => { status := usage.exitCode }

end Subtyping
