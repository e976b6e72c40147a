import Subtyping.Log.Record
import Subtyping.Text.Blank
import Subtyping.Text.Pieces

/-!
# Which events are logged

A list of directives, separated by commas, says up to which level events are logged. A directive
names a target, a level or both: `liskov_solver=trace`. Some short names stand for a directive. Of
the directives whose target begins an event's target, the longest decides.
-/

namespace Subtyping.Log

/-! ## Lists of directives -/

/-- The texts between commas. -/
def entries (value : String) : List String :=
  Text.split ',' value

/-- What a short name stands for; anything else stands for itself. -/
def expandName : String → String
  | "verdicts" => "liskov_solver::substitution=debug"
  | "solver" => "liskov_solver=trace"
  | "queries" => "liskov::query_json=trace"
  | "cli" => "liskov::cli=info"
  | other => other

/-- Replaces the short names in a list of directives, and drops blanks and empty entries. -/
def expand (value : String) : String :=
  ",".intercalate (((entries value).map Text.trim).filter (· != "") |>.map expandName)

/-- The directives in force: the program's own setting, expanded, or else the general one as it
is. -/
def select (own general : Option String) : Option String :=
  (own.map expand).or general

/-! ## Single directives -/

/-- A directive: the highest rank of level that passes, for the targets with a given beginning. -/
structure Directive where
  target : Option String
  rank : Nat
deriving DecidableEq, Repr

/-- The text as a number, which may have a plus sign before its digits. -/
def number? (cs : List Char) : Option Nat :=
  let digits :=
    match cs with
    | '+' :: cs => cs
    | cs => cs
  if digits.isEmpty || !digits.all Char.isDigit then
    none
  else
    some (digits.foldl (fun n c => 10 * n + (c.toNat - '0'.toNat)) 0)

/-- The rank that a level's name or number gives. -/
def rank? (level : String) : Option Nat :=
  match number? level.toList with
  | some n => if n ≤ 5 then some n else none
  | none =>
    match level.toLower with
    | "off" => some 0
    | "error" => some 1
    | "warn" => some 2
    | "info" => some 3
    | "debug" => some 4
    | "trace" => some 5
    | _ => none

/-- Why a directive is passed over. -/
inductive DirectiveError where
  | malformed
  | unknownLevel
deriving DecidableEq, Repr

/-- The text of an error. -/
def DirectiveError.message : DirectiveError → String
  | malformed => "invalid filter directive"
  | unknownLevel =>
    "error parsing level filter: expected one of \"off\", \"error\", \"warn\", \"info\", \"debug\", \"trace\", or a number 0-5"

/-- Whether a directive may begin with a character; any beyond ASCII will do, for no target has
one. -/
def Directive.canStart (c : Char) : Bool :=
  c.isAlphanum || c == '-' || c == ':' || c == '_' || c == '[' || 0x80 ≤ c.toNat

/-- Reads a directive. A level alone is for all targets; a target alone passes all levels. -/
def Directive.parse (entry : String) : Except DirectiveError Directive :=
  if !entry.toList.head?.any canStart then
    .error .malformed
  else
    match Text.split '=' entry with
    | [] => .error .malformed
    | [word] =>
      match rank? word with
      | some rank => .ok { target := none, rank }
      | none => .ok { target := some word, rank := 5 }
    | target :: level =>
      match "=".intercalate level with
      | "" => .ok { target := some target, rank := 5 }
      | level =>
        match rank? level with
        | some rank => .ok { target := some target, rank }
        | none => .error .unknownLevel

/-- The directives of a list, and the entries that are none. -/
def parse (value : String) : List Directive × List (String × DirectiveError) :=
  ((entries value).filter (· != "")).foldr
    (fun entry (directives, errors) =>
      match Directive.parse (Text.trim entry) with
      | .ok d => (d :: directives, errors)
      | .error e => (directives, (entry, e) :: errors))
    ([], [])

/-- What is said about the entries of a list that are passed over. -/
def complaints (value : String) : List String :=
  (parse value).2.map fun (entry, error) => "ignoring `" ++ entry ++ "`: " ++ error.message

/-! ## Filtering -/

/-- Whether a directive is about a target. -/
def Directive.concerns (d : Directive) (target : String) : Bool :=
  d.target.all fun start => start.toList.isPrefixOf target.toList

/-- How specific a directive is. -/
def Directive.weight (d : Directive) : Nat :=
  match d.target with
  | none => 0
  | some start => start.utf8ByteSize + 1

/-- The directive that decides on a target: the most specific one, and of equals the last. -/
def deciding (directives : List Directive) (target : String) : Option Directive :=
  (directives.filter (·.concerns target)).foldl (fun best d =>
    match best with
    | some b => if b.weight ≤ d.weight then some d else best
    | none => some d) none

/-- Whether a record passes. -/
def passes (directives : List Directive) (r : Record) : Bool :=
  match deciding directives r.target with
  | some d => r.level.rank ≤ d.rank
  | none => false

/-- The records of a journal that pass a list of directives. -/
def filter (value runId : String) (events : Array Event) : List Record :=
  let directives := (parse value).1
  (events.toList.map (Record.ofEvent runId)).filter (passes directives)

end Subtyping.Log
