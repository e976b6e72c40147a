import Subtyping.Universe.Hierarchy
import Subtyping.Verdicts

/-!
# Searches

A `Search` is the state of the search for a substitution: the universe, the verdicts reached so
far, and the pairs in progress. `SearchM` is the state monad over it. This module has the single
steps that the search is made of.
-/

namespace Subtyping

/-- A universe in use and the verdicts reached in it so far. -/
structure Solver where
  chronicle : Chronicle
  verdicts : Verdicts := {}

/-- A search in progress. -/
structure Search where
  chronicle : Chronicle
  verdicts : Verdicts
  guard : Guard Pair
  /-- The pairs in progress, the outermost first. -/
  stack : Array Pair := #[]
  /-- The place on the stack of the outermost pair that the current answer leans on. -/
  lowest : Option Nat := none
  /-- How often a limit refused work, counted without a bound. -/
  refusals : Nat := 0

/-- Work within a search. -/
abbrev SearchM := StateM Search

/-- Work on a universe is work within a search. -/
instance : MonadLift UniverseM SearchM where
  monadLift x := fun { chronicle, verdicts, guard, stack, lowest, refusals } =>
    let (a, chronicle) := x chronicle
    (a, { chronicle, verdicts, guard, stack, lowest, refusals })

namespace Search

open UniverseM

/-! ## Steps on the state -/

/-- A search with nothing in progress. -/
def start (s : Solver) (limits : Limits) : Search :=
  { chronicle := s.chronicle, verdicts := s.verdicts, guard := .new limits }

/-- What stays of a search. -/
def solver (s : Search) : Solver :=
  { chronicle := s.chronicle, verdicts := s.verdicts }

/-- Some limit has refused a question. -/
def exceeded : SearchM Bool := do
  return (← get).guard.exceeded

/-- The depth that the limits allow. -/
def depthLimit : SearchM Nat := do
  return (← get).guard.limits.depth

/-- How often a limit has refused work so far. -/
def refusalCount : SearchM Nat := do
  return (← get).refusals

/-- The place of a pair on the stack. -/
def placeOf? (pair : Pair) : SearchM (Option Nat) := do
  return (← get).stack.idxOf? pair

def lookup (pair : Pair) : SearchM (Option Verdict) :=
  modifyGet fun { chronicle, verdicts, guard, stack, lowest, refusals } =>
    let (found, verdicts) := verdicts.lookup pair
    (found, { chronicle, verdicts, guard, stack, lowest, refusals })

def record (pair : Pair) (verdict : Verdict) : SearchM Verdict :=
  modifyGet fun { chronicle, verdicts, guard, stack, lowest, refusals } =>
    let (standing, verdicts) := verdicts.record pair verdict
    (standing, { chronicle, verdicts, guard, stack, lowest, refusals })

/-- Asks the guard to let a pair in. -/
def enter (pair : Pair) : SearchM Admission :=
  modifyGet fun { chronicle, verdicts, guard, stack, lowest, refusals } =>
    let (admission, guard) := guard.enter pair
    (admission, { chronicle, verdicts, guard, stack, lowest, refusals })

/-- Tells the guard that the work on a pair is over. -/
def leave (pair : Pair) : SearchM Unit :=
  modify fun s => { s with guard := s.guard.leave pair }

/-- Puts an admitted pair on the stack, and gives its place and what the answer around it leaned
on so far. The answer to the pair itself starts out leaning on nothing. -/
def push (pair : Pair) : SearchM (Nat × Option Nat) :=
  modifyGet fun s =>
    ((s.stack.size, s.lowest), { s with stack := s.stack.push pair, lowest := none })

/-- Takes the innermost pair off the stack. -/
def pop (pair : Pair) : SearchM Unit :=
  modify fun s => { s with stack := s.stack.pop, guard := s.guard.leave pair }

/-- The smaller of two places, where no place is the largest. -/
def outermost : Option Nat → Option Nat → Option Nat
  | some a, some b => some (min a b)
  | some a, none => some a
  | none, b => b

/-- The current answer leans on the pair at a place of the stack. -/
def leanOn (place : Nat) : SearchM Unit :=
  modify fun s => { s with lowest := outermost s.lowest (some place) }

/-- A limit refused work. -/
def refuse : SearchM Unit :=
  modify fun s => { s with refusals := s.refusals + 1 }

end Search

end Subtyping
