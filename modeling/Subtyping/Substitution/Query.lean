import Subtyping.Substitution.Evaluate
import Subtyping.Thread

/-!
# Queries

A query is a question from outside. Each runs a search of its own, and all share the universe and the
verdicts of a `Solver`. A query is answered as a whole (`Solver.query`) or in steps, between which others
may use the solver (`Solver.queryInSteps`). A step is a look-up or the recording of a verdict, a call on
the universe, or a note in the journal.
-/

namespace Subtyping

/-- The answer to a query. -/
structure Answer where
  /-- The closed form of the target that the source stands for. -/
  substitution : Option Handle
  /-- The verdict had been recorded before. -/
  cacheHit : Bool := false
  /-- A limit refused a question on the way. -/
  depthExceeded : Bool := false
deriving DecidableEq, Repr

def Answer.isRelated (a : Answer) : Bool :=
  a.substitution.isSome

universe v

namespace Search

variable {m : Type → Type v} [Monad m] [MonadLiftT UniverseM m] [MonadLiftT SearchM m]

/-- Answers a query, where `evaluate` answers what is neither trivial nor on record; absent types are
never related. -/
def checkBy (evaluate : Pair → m (Option Handle)) : (source target : Option Handle) → m Answer
  | some source, some target => do
    if source = target then
      return { substitution := some source }
    else
      match ← lookup ⟨source, target⟩ with
      | some verdict => return { substitution := verdict.substitution?, cacheHit := true }
      | none =>
        let substitution ← evaluate ⟨source, target⟩
        return { substitution, depthExceeded := ← exceeded }
  | _, _ => return { substitution := none }

/-- Answers a query by a search with hooks. -/
def checkWith (hooks : Hooks m) (source target : Option Handle) : m Answer :=
  checkBy (fun pair => do evaluateWith hooks (← depthLimit) pair) source target

/-- Answers a query. -/
def check (source target : Option Handle) : SearchM Answer :=
  checkWith .plain source target

theorem check_some (source target : Handle) : check (some source) (some target) = do
    if source = target then
      return { substitution := some source }
    else
      match ← lookup ⟨source, target⟩ with
      | some verdict => return { substitution := verdict.substitution?, cacheHit := true }
      | none =>
        let substitution ← evaluate (← get).guard.limits.depth ⟨source, target⟩
        return { substitution, depthExceeded := ← exceeded } :=
  rfl

/-- The same search, on a solver as others have left it. -/
def withSolver (s : Search) (solver : Solver) : Search :=
  { s with chronicle := solver.chronicle, verdicts := solver.verdicts }

/-- What of a search is its own, from the guard to the count of refusals. -/
def own (s : Search) : Search :=
  s.withSolver { chronicle := {} }

end Search

/-- Work with a solver. -/
abbrev SolverM := StateM Solver

/-- Work on a universe is work with a solver. -/
instance : MonadLift UniverseM SolverM where
  monadLift x := fun { chronicle, verdicts } =>
    let (a, chronicle) := x chronicle
    (a, { chronicle, verdicts })

/-- Work within a search that shares its solver with others, as part of a thread with a result in `ρ`.
What is the search's own goes from step to step. -/
abbrev SharedM (ρ : Type) := StateT Search (Steps Solver ρ)

/-- Work within a search is a single step, on the solver as the others have left it. -/
instance {ρ : Type} : MonadLift SearchM (SharedM ρ) where
  monadLift x := fun s next =>
    .step (fun solver =>
      let (a, s) := x (s.withSolver solver)
      ((a, s.own), s.solver)) next

namespace Solver

/-- Runs a search under limits. -/
def search {α : Type} (limits : Limits) (x : SearchM α) : SolverM α := fun s =>
  let (a, s) := x (.start s limits)
  (a, s.solver)

/-- Runs a search under limits in steps. -/
def searchInSteps {α ρ : Type} (limits : Limits) (x : SharedM ρ α) : Steps Solver ρ α := do
  let (a, _) ← x (.start { chronicle := {} } limits)
  return a

/-- Counts a query, and gives its number. -/
def beginQuery : SolverM Nat :=
  modifyGet fun { chronicle := { univ, journal }, verdicts } =>
    let (number, journal) := journal.beginQuery
    (number, { chronicle := { univ, journal }, verdicts })

/-- Answers a query as given, and notes its beginning and its end. -/
def queryWith {m : Type → Type v} [Monad m] [MonadLiftT UniverseM m] [MonadLiftT SolverM m]
    (answer : m Answer) (source target : Option Handle) : m Answer := do
  let number ← beginQuery
  UniverseM.note (.queryStarted number source target)
  let answer ← answer
  UniverseM.note (.queryEnded number answer.substitution answer.cacheHit answer.depthExceeded)
  return answer

/-- Answers a query. -/
def query (limits : Limits) (source target : Option Handle) : SolverM Answer :=
  queryWith (search limits (Search.check source target)) source target

/-- Answers a query in steps. -/
def queryInSteps {ρ : Type} (limits : Limits) (source target : Option Handle) :
    Steps Solver ρ Answer :=
  queryWith (searchInSteps limits (Search.checkWith .plain source target)) source target

/-- Forgets all verdicts. -/
def clear : SolverM Unit :=
  modify fun s => { s with verdicts := {} }

end Solver

end Subtyping
