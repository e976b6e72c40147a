import Subtyping.Substitution.Resolve

/-!
# The search for a substitution

A question on two different types is answered by a recorded verdict, or else from the
declarations, which may raise further questions. A question that comes up again while it is being
answered is assumed to hold, and a verdict that leans on such an assumption is recorded only once
the question that it was made about is answered. A question that a limit refuses has no
substitution, and no verdict reached on the way of a refusal is recorded.

`Search.evaluateWith` ties the knot, by recursion on the depth that is left. What it does at the points
where a search can be watched is given by `Search.Hooks`; `Search.evaluate` is the search that nobody
watches.
-/

namespace Subtyping.Search

open UniverseM

universe v

/-- What is done at the points where a search can be watched. -/
structure Hooks (m : Type → Type v) where
  /-- A limit refuses a pair; the flag says whether one had refused something before. -/
  refused : Bool → Pair → Admission → m Unit
  /-- A pair in progress is not on the stack; gives the place that is taken for its own. -/
  missing : m Nat
  /-- The answer to a pair on the stack begins, or it is about to be settled. -/
  watch : m Unit
  /-- The answer to a pair is settled for good. -/
  keep : Pair → Option Handle → m (Option Handle)

variable {m : Type → Type v} [Monad m] [MonadLiftT UniverseM m] [MonadLiftT SearchM m]

/-- Notes that a limit refused a pair. -/
def noteRefusal (pair : Pair) (admission : Admission) : SearchM Unit := do
  let guard := (← get).guard
  note (.limitReached pair guard.depth guard.steps admission)

/-- Records the verdict on a pair. The answer is the verdict that stands. -/
def recordAnswer (pair : Pair) (computed : Option Handle) : m (Option Handle) := do
  let standing ← record pair (.ofSubstitution computed)
  note (.verdict pair standing.substitution?)
  return standing.substitution?

/-- Only the first refusal is noted, and verdicts are recorded. -/
def Hooks.plain : Hooks m where
  refused before pair admission := unless before do noteRefusal pair admission
  missing := return 0
  watch := return
  keep := recordAnswer

/-- Answers a nested question, where `evaluate` answers those that are neither trivial nor
answered already. -/
def substituteBy (evaluate : Pair → m (Option Handle)) : Nested m := fun source target => do
  if source = target then
    return some source
  else
    match ← lookup ⟨source, target⟩ with
    | some verdict =>
      note (.verdictReused ⟨source, target⟩)
      return verdict.substitution?
    | none => evaluate ⟨source, target⟩

/-- Takes a pair off the stack. Gives whether its answer leans on a pair further out, and whether work
was refused since `refusalsBefore`. -/
def unstack (pair : Pair) (place : Nat) (around : Option Nat) (refusalsBefore : Nat) :
    SearchM (Bool × Bool) := do
  pop pair
  let s ← get
  let provisional := s.lowest.any (· < place)
  modify fun s =>
    { s with lowest := if provisional then outermost around s.lowest else around }
  return (provisional, s.refusals != refusalsBefore)

/-- Ends the work on a pair: its answer is settled for good unless it leans on a pair further out, or
work was refused since `refusalsBefore`. -/
def settleWith (hooks : Hooks m) (pair : Pair) (place : Nat) (around : Option Nat)
    (refusalsBefore : Nat) (computed : Option Handle) : m (Option Handle) := do
  let (provisional, refused) ← unstack pair place around refusalsBefore
  if provisional || refused then
    note (.verdictWithheld pair provisional computed.isSome)
    return computed
  else
    hooks.keep pair computed

/-- The place of a pair that is in progress. -/
def placeWith (hooks : Hooks m) (pair : Pair) : m Nat := do
  match ← placeOf? pair with
  | some place => return place
  | none => hooks.missing

/-- A pair that is in progress is assumed to hold, and the current answer leans on it. -/
def assumeWith (hooks : Hooks m) (pair : Pair) : m (Option Handle) := do
  let place ← placeWith hooks pair
  leanOn place
  note (.cycleAssumed pair place)
  return some pair.source

/-- Asks the guard to let a pair in, which is then answered as given. A pair that a limit refuses has
no substitution, and one that is in progress is assumed to hold. -/
def letInWith (hooks : Hooks m) (pair : Pair) (answer : m (Option Handle)) : m (Option Handle) := do
  let before ← exceeded
  let admission ← enter pair
  match admission with
  | .depthExceeded | .stepsExceeded =>
    refuse
    hooks.refused before pair admission
    return none
  | .cycle => assumeWith hooks pair
  | .entered => answer

/-- Answers a pair that was let in from the declarations. -/
def answerWith (hooks : Hooks m) (nested : Nested m) (pair : Pair) : m (Option Handle) := do
  let refusalsBefore ← refusalCount
  let (place, around) ← push pair
  hooks.watch
  let computed ← resolve nested pair.source pair.target
  hooks.watch
  settleWith hooks pair place around refusalsBefore computed

/-- Answers a question on two different types without a recorded verdict, where `ask` answers those
that it raises. -/
def askWith (hooks : Hooks m) (ask : Pair → m (Option Handle)) (pair : Pair) : m (Option Handle) :=
  letInWith hooks pair (answerWith hooks (substituteBy ask) pair)

/-- Answers a question on two different types without a recorded verdict; `levels` is the depth
that is left, so that a pair is let in only while it is positive. -/
def evaluateWith (hooks : Hooks m) : (levels : Nat) → Pair → m (Option Handle)
  | 0, pair => letInWith hooks pair do
    leave pair
    return none
  | levels + 1, pair => askWith hooks (evaluateWith hooks levels) pair

/-! ## The search that nobody watches -/

def settle (pair : Pair) (place : Nat) (around : Option Nat) (refusalsBefore : Nat)
    (computed : Option Handle) : SearchM (Option Handle) :=
  settleWith .plain pair place around refusalsBefore computed

def assume (pair : Pair) : SearchM (Option Handle) :=
  assumeWith .plain pair

def letIn (pair : Pair) (answer : SearchM (Option Handle)) : SearchM (Option Handle) :=
  letInWith .plain pair answer

def answerBy (nested : Nested SearchM) (pair : Pair) : SearchM (Option Handle) :=
  answerWith .plain nested pair

def evaluate (levels : Nat) (pair : Pair) : SearchM (Option Handle) :=
  evaluateWith .plain levels pair

/-- Answers a nested question at the outermost level of a search. -/
def substitute : Nested SearchM := fun source target => do
  substituteBy (evaluate (← get).guard.limits.depth) source target

end Subtyping.Search
