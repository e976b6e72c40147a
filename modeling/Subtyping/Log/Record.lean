import Subtyping.Event
import Subtyping.Text.Quoted

/-!
# Log records

How an event reads in a log: a level, the part of the program it comes from, a message and named
fields.
-/

namespace Subtyping.Log

/-- How much an event matters; events of the later levels are for closer inspection. -/
inductive Level where
  | error
  | warn
  | info
  | debug
  | trace
deriving DecidableEq, Repr

/-- The place of a level in the order from severe to detailed, from one. -/
def Level.rank : Level → Nat
  | error => 1
  | warn => 2
  | info => 3
  | debug => 4
  | trace => 5

def Level.name : Level → String
  | error => "ERROR"
  | warn => "WARN"
  | info => "INFO"
  | debug => "DEBUG"
  | trace => "TRACE"

/-- The value of a field. -/
inductive FieldValue where
  | nat (n : Nat)
  | bool (b : Bool)
  /-- A text, quoted in lines. -/
  | text (s : String)
  /-- The text of something else, as it is. -/
  | plain (s : String)
deriving DecidableEq, Repr

/-- An event in a log. -/
structure Record where
  level : Level
  target : String
  message : Option String
  fields : List (String × FieldValue) := []
deriving DecidableEq, Repr

/-! ## Words -/

def kindName : Kind → String
  | .classKind => "Class"
  | .structKind => "Struct"
  | .interfaceKind => "Interface"

def admissionName : Admission → String
  | .entered => "Entered"
  | .cycle => "Cycle"
  | .depthExceeded => "DepthExceeded"
  | .stepsExceeded => "IterationExceeded"

def optionText : Option Handle → String
  | some ty => s!"Some({ty.num})"
  | none => "None"

/-- Where events come from. -/
def definitionsTarget : String := "liskov_solver::def"
def universeTarget : String := "liskov_solver::universe"
def searchTarget : String := "liskov_solver::substitution"
def queryTarget : String := "liskov::query_json"
def runTarget : String := "liskov::cli::driver"
def fileTarget : String := "liskov::cli::universe_file"

/-! ## Events -/

def pairFields (pair : Pair) : List (String × FieldValue) :=
  [("source", .nat pair.source.num), ("target", .nat pair.target.num)]

/-- A field that is left out if it has no value. -/
def handleField (name : String) : Option Handle → List (String × FieldValue)
  | some ty => [(name, .nat ty.num)]
  | none => []

/-- The fields that begin every record of a query. -/
def queryFields (runId phase : String) (query : Nat) : List (String × FieldValue) :=
  [("event", .text "query"), ("phase", .text phase), ("run_id", .text runId),
    ("query_id", .nat query), ("op", .text "substitution")]

/-- The record of an event; `runId` marks the queries of this run. -/
def Record.ofEvent (runId : String) : Event → Record
  | .opened => ⟨.trace, definitionsTarget, "DefinitionStore::new - creating new instance", []⟩
  | .registered decl kind name =>
    ⟨.trace, definitionsTarget, "DefinitionStore::register",
      [("def_id", .nat decl.num), ("kind", .plain (kindName kind)), ("name", .plain name)]⟩
  | .declared name arity ty =>
    ⟨.trace, universeTarget, "TypeUniverse::declare",
      [("name", .plain name), ("arity", .nat arity), ("type_id", .nat ty.num)]⟩
  | .nestingLimitReached ty =>
    ⟨.warn, universeTarget,
      "TypeUniverse::instantiate - nesting limit reached, leaving type partially open",
      [("type_id", .nat ty.num)]⟩
  | .chainTruncated ty limit =>
    ⟨.warn, universeTarget, "TypeUniverse::base_chain - chain truncated",
      [("type_id", .nat ty.num), ("limit", .nat limit)]⟩
  | .verdictReused pair => ⟨.trace, searchTarget, "substitution cache hit", pairFields pair⟩
  | .limitReached pair depth steps reason =>
    ⟨.warn, searchTarget, "substitution recursion limit reached",
      pairFields pair ++
        [("depth", .nat depth), ("iterations", .nat steps),
          ("reason", .plain (admissionName reason))]⟩
  | .cycleAssumed pair head =>
    ⟨.trace, searchTarget, "substitution cycle, assuming related",
      pairFields pair ++ [("head", .nat head)]⟩
  | .walkTruncated source limit =>
    ⟨.warn, searchTarget, "base chain walk truncated",
      [("source", .nat source.num), ("limit", .nat limit)]⟩
  | .verdictWithheld pair provisional related =>
    ⟨.trace, searchTarget, "substitution verdict not cached",
      pairFields pair ++ [("provisional", .bool provisional), ("related", .bool related)]⟩
  | .verdict pair substitution =>
    ⟨.debug, searchTarget, "substitution verdict",
      pairFields pair ++
        [("related", .bool substitution.isSome), ("substitution", .plain (optionText substitution))]⟩
  | .queryStarted query source target =>
    ⟨.trace, queryTarget, none,
      queryFields runId "start" query ++
        handleField "source_type_id" source ++ handleField "target_type_id" target⟩
  | .queryEnded query substitution cacheHit depthExceeded =>
    ⟨.trace, queryTarget, none,
      queryFields runId "end" query ++ [("related", .bool substitution.isSome)] ++
        handleField "substitution_type_id" substitution ++
        [("cache_hit", .bool cacheHit), ("depth_exceeded", .bool depthExceeded)]⟩
  | .queriesEvaluated queries verdicts =>
    ⟨.info, runTarget, "queries evaluated",
      [("queries", .nat queries), ("cache_entries", .nat verdicts)]⟩
  | .verdictsUsed hits misses =>
    ⟨.debug, runTarget, "substitution cache", [("hits", .nat hits), ("misses", .nat misses)]⟩
  | .fileLoaded declarations types =>
    ⟨.debug, fileTarget, "universe file loaded",
      [("declarations", .nat declarations), ("types", .nat types)]⟩

/-! ## Lines -/

def FieldValue.inLine : FieldValue → String
  | nat n => toString n
  | bool b => if b then "true" else "false"
  | text s => Text.quoted s
  | plain s => s

/-- A record as a line: the level, set flush right to five places, then the target, the message
and the fields. -/
def Record.line (r : Record) : String :=
  let level := String.ofList (List.replicate (5 - r.level.name.length) ' ') ++ r.level.name
  let fields := r.fields.map fun (name, value) => name ++ "=" ++ value.inLine
  level ++ " " ++ r.target ++ ": " ++ " ".intercalate (r.message.toList ++ fields)

end Subtyping.Log
