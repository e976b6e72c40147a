import Subtyping.Json.Value
import Subtyping.Report.Style
import Subtyping.Run

/-!
# Reports

Outcomes as lines of text, with or without styles, and as JSON.
-/

namespace Subtyping

open Json (Value)

namespace Report

/-- A text in a style, if the report has styles. -/
def styled (color : Bool) (style : Style) (text : String) : String :=
  if color then style.paint text else text

/-- What is worth knowing about how an outcome was reached. -/
def flags (color : Bool) (o : Outcome) : String :=
  if o.depthExceeded then " [" ++ styled color .warning "depth limit reached" ++ "]" else ""

/-- The line for a single query. -/
def checkLine (color : Bool) (o : Outcome) : String :=
  let verdict :=
    if o.related then styled color .good "related" else styled color .bad "unrelated"
  let found :=
    match o.substitution with
    | some type => " as " ++ styled color .type type
    | none => ""
  o.source ++ " -> " ++ o.target ++ ": " ++ verdict ++ found ++ flags color o

/-- What an outcome should have been. -/
def expectation (o : Outcome) : String :=
  match o.expectedSubstitution, o.expected with
  | some type, _ => type
  | none, some false => "no substitution"
  | none, _ => "a substitution"

/-- The line for a query of a run. -/
def outcomeLine (color : Bool) (o : Outcome) : String :=
  let status := if o.passed then styled color .good "PASS" else styled color .bad "FAIL"
  let result :=
    match o.substitution with
    | some type => styled color .type type
    | none => "no substitution"
  let missed := if o.passed then "" else " (expected " ++ expectation o ++ ")"
  status ++ " " ++ o.source ++ " -> " ++ o.target ++ ": " ++ result ++ missed ++ flags color o

/-- The last line of a run. -/
def totalsLine (color : Bool) (s : Summary) : String :=
  let failures := s.failures
  let passed := s.outcomes.length - failures
  let text := s!"{passed} passed, {failures} failed ({s.entries} cached verdicts)"
  styled color (if failures = 0 then .good else .bad) text

/-- The lines of a run. -/
def runLines (color : Bool) (s : Summary) : String :=
  "\n".intercalate (s.outcomes.map (outcomeLine color) ++ [totalsLine color s])

/-! ## JSON -/

/-- A member that is left out if there is nothing to write. -/
def optionalMember {α : Type} (key : String) (f : α → Value) : Option α → List (String × Value)
  | some a => [(key, f a)]
  | none => []

end Report

open Report

def Outcome.toValue (o : Outcome) : Value :=
  .object <|
    [("source", .string o.source),
      ("target", .string o.target),
      ("related", .bool o.related),
      ("substitution", .ofOption .string o.substitution),
      ("cacheHit", .bool o.cacheHit),
      ("depthExceeded", .bool o.depthExceeded)] ++
    optionalMember "expected" .bool o.expected ++
    optionalMember "expectedSubstitution" .string o.expectedSubstitution ++
    [("passed", .bool o.passed)]

def Summary.toValue (s : Summary) : Value :=
  .object [
    ("outcomes", .list (s.outcomes.map Outcome.toValue)),
    ("cacheEntries", .nat s.entries),
    ("cacheHits", .nat s.hits),
    ("cacheMisses", .nat s.misses)]

end Subtyping
