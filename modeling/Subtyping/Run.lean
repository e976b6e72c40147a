import Subtyping.Manifest.Build
import Subtyping.Substitution.Query

/-!
# Answering queries

The queries of a manifest, or a single one, are resolved and answered in a universe. All of them
are resolved, in the order of the file, before the first is answered. They are answered side by side:
they share the universe and one set of verdicts, and a schedule says which of them takes the next step.
Outcomes stand in the order of the file whatever the schedule, and give types by their text.
-/

namespace Subtyping

/-- The limits of a run: a depth given by the caller comes before one given by the file. -/
def Manifest.limits (m : Manifest) (depth : Option Nat) : Limits :=
  match depth.or m.options.maxDepth with
  | some depth => Limits.query.withDepth depth
  | none => Limits.query

/-- The answer to one query, as it is reported. -/
structure Outcome where
  source : String
  target : String
  related : Bool
  substitution : Option String := none
  cacheHit : Bool := false
  depthExceeded : Bool := false
  expected : Option Bool := none
  expectedSubstitution : Option String := none
  passed : Bool
deriving DecidableEq, Repr

/-- The outcomes of a run in the order of the file, and how verdicts were used. -/
structure Summary where
  outcomes : List Outcome := []
  entries : Nat := 0
  hits : Nat := 0
  misses : Nat := 0
deriving DecidableEq, Repr

def Summary.failures (s : Summary) : Nat :=
  s.outcomes.countP (!·.passed)

def Summary.allPassed (s : Summary) : Bool :=
  s.failures == 0

/-- A query whose expressions are resolved. -/
structure Question where
  source : Handle
  target : Handle
  expect : Option Bool
  substitution : Option Handle
deriving DecidableEq, Repr

namespace Question

open Attempt

universe v

/-- Resolves a query. -/
def ofQuery (q : Manifest.Query) : Attempt Question := do
  let source ← within (.querySource q.source) (TypeExpr.resolveText none q.source)
  let target ← within (.queryTarget q.target) (TypeExpr.resolveText none q.target)
  let substitution ← q.substitution.mapM fun e =>
    within (.expectedSubstitution e) (TypeExpr.resolveText none e)
  return { source, target, expect := q.expect, substitution }

/-- What a question expects: to be related, if a substitution is expected. -/
def expected (q : Question) : Option Bool :=
  q.expect.or (q.substitution.map fun _ => true)

/-- Whether an answer is what was expected. -/
def accepts (q : Question) (a : Answer) : Bool :=
  q.expected.all (· == a.isRelated) && q.substitution.all (a.substitution == some ·)

/-- Puts the answer to a question into words. -/
def report (q : Question) (a : Answer) (u : Universe) : Outcome where
  source := u.display q.source
  target := u.display q.target
  related := a.isRelated
  substitution := a.substitution.map u.display
  cacheHit := a.cacheHit
  depthExceeded := a.depthExceeded
  expected := q.expected
  expectedSubstitution := q.substitution.map u.display
  passed := q.accepts a

/-- Answers a question by a query and puts the answer into words. -/
def evaluateBy {m : Type → Type v} [Monad m] [MonadLiftT UniverseM m]
    (query : (source target : Option Handle) → m Answer) (q : Question) : m Outcome := do
  let a ← query (some q.source) (some q.target)
  UniverseM.view (q.report a)

def evaluate (limits : Limits) (q : Question) : SolverM Outcome :=
  q.evaluateBy (Solver.query limits)

def evaluateInSteps (limits : Limits) (q : Question) : Thread Solver Outcome :=
  Steps.thread (q.evaluateBy (Solver.queryInSteps limits))

end Question

/-- Works with a new solver on the universe; gives also the verdicts that it leaves. -/
def Solver.onUniverse {α : Type} (x : SolverM α) : UniverseM (α × Verdicts) := fun chronicle =>
  let (a, { chronicle, verdicts }) := x { chronicle }
  ((a, verdicts), chronicle)

/-- Answers a single query. -/
def checkQuery (limits : Limits) (source target : String) : Attempt Outcome := do
  let question ← Question.ofQuery { source, target }
  let (outcome, _) ← Solver.onUniverse (question.evaluate limits)
  return outcome

/-- Answers all queries of a manifest. The schedule gives, turn by turn, the place in the file of the query
that takes the next step; once it is over, or if it is left out, they are answered one after the other. -/
def runQueries (limits : Limits) (m : Manifest) (schedule : List Nat := []) : Attempt Summary := do
  let questions ← m.queries.zipIdx.mapM fun (q, index) =>
    Attempt.within (.query (index + 1)) (Question.ofQuery q)
  let threads := questions.map (·.evaluateInSteps limits)
  let (outcomes, verdicts) ← Solver.onUniverse (Thread.interleave threads schedule)
  UniverseM.note (.queriesEvaluated outcomes.length verdicts.size)
  UniverseM.note (.verdictsUsed verdicts.hits verdicts.misses)
  return { outcomes, entries := verdicts.size, hits := verdicts.hits, misses := verdicts.misses }

end Subtyping
