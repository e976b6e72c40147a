import Subtyping.Declaration
import Subtyping.Limits.Guard

/-!
# Events

What happens in a universe and in a search is written down in a `Journal`, as `Event` values in
the order in which they occur. How an event reads in a log is the business of `Subtyping.Log`.
-/

namespace Subtyping

/-- Something worth noting. -/
inductive Event where
  /-- An empty universe was opened. -/
  | opened
  /-- A declaration got its number. -/
  | registered (decl : DeclId) (kind : Kind) (name : String)
  /-- A declaration got its own type. -/
  | declared (name : String) (arity : Nat) (ty : Handle)
  /-- A type was nested too deeply to put arguments for all of its parameters. -/
  | nestingLimitReached (ty : Handle)
  /-- A base chain was longer than the walk along it. -/
  | chainTruncated (ty : Handle) (limit : Nat)
  /-- A nested question was answered from recorded verdicts. -/
  | verdictReused (pair : Pair)
  /-- A limit refused a question, the first time in its search. -/
  | limitReached (pair : Pair) (depth steps : Nat) (reason : Admission)
  /-- A question came up while it was being answered; `head` is its place among the open ones. -/
  | cycleAssumed (pair : Pair) (head : Nat)
  /-- The search for a base built from some definition gave up. -/
  | walkTruncated (source : Handle) (limit : Nat)
  /-- A verdict was reached that others must not rely on. -/
  | verdictWithheld (pair : Pair) (provisional related : Bool)
  /-- A verdict was recorded. -/
  | verdict (pair : Pair) (substitution : Option Handle)
  | queryStarted (query : Nat) (source target : Option Handle)
  | queryEnded (query : Nat) (substitution : Option Handle) (cacheHit depthExceeded : Bool)
  /-- All queries of a file were answered. -/
  | queriesEvaluated (queries verdicts : Nat)
  /-- How often recorded verdicts were asked for, found and not found. -/
  | verdictsUsed (hits misses : Nat)
  /-- A universe was built from a file. -/
  | fileLoaded (declarations types : Nat)
deriving DecidableEq, Repr

/-- The events so far, and the number of queries begun. -/
structure Journal where
  events : Array Event := #[]
  queries : Nat := 0

/-- Adds an event at the end. -/
def Journal.note (j : Journal) (e : Event) : Journal :=
  { j with events := j.events.push e }

/-- Begins a query, which gets the next number. -/
def Journal.beginQuery (j : Journal) : Nat × Journal :=
  (j.queries + 1, { j with queries := j.queries + 1 })

end Subtyping
