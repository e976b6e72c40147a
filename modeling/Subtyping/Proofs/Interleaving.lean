import Subtyping.Proofs.Queries
import Subtyping.Proofs.Threads

/-!
# Queries that share a solver

Threads that move their state on only as a relation says, and rely on the others for no more than that,
can be run by turns: whatever the schedule, the state has moved on as the relation says, and each thread
has the result that it has on its own (`Thread.interleave_complies`).

A search in steps obeys the rules of a search in which others may move the solver on after each step
(`Search.Logic.shared`). So queries that are asked at the same time keep the solver exact, and each is
answered as if it were alone (`Solver.queryInSteps_complies`).
-/

namespace Subtyping

/-! ## Threads that keep to a relation -/

namespace Thread

variable {σ α ι : Type} {R : σ → σ → Prop}

/-- From a state, each step of a thread moves the state on as `R` says, and after others have done so as
well the thread goes on like this, up to a result as said. -/
def Complies (R : σ → σ → Prop) (Φ : α → Prop) : Thread σ α → σ → Prop
  | done a, _ => Φ a
  | step x next, s => R s (x s).2 ∧ ∀ s', R (x s).2 s' → Complies R Φ (next (x s).1) s'

section Turns

variable (hself : ∀ s s', R s s' → R s' s') (htrans : ∀ s s' s'', R s s' → R s' s'' → R s s'')
include hself htrans

theorem Complies.run {Φ : α → Prop} {t : Thread σ α} {s : σ} (hs : R s s) (h : Complies R Φ t s) :
    R s (t.run s).2 ∧ Φ (t.run s).1 := by
  induction t generalizing s with
  | done a => exact ⟨hs, h⟩
  | step x next ih =>
    obtain ⟨hx, hnext⟩ := h
    have hstart := hself _ _ hx
    obtain ⟨hrest, hresult⟩ := ih (x s).1 hstart (hnext _ hstart)
    exact ⟨htrans _ _ _ hx hrest, hresult⟩

omit hself htrans in
/-- A thread that complies from every state that others lead to goes on doing so after its turn. -/
theorem Complies.advance {Φ : α → Prop} {t : Thread σ α} {s : σ} (hs : R s s)
    (h : ∀ s', R s s' → Complies R Φ t s') :
    R s (t.advance s).2 ∧ ∀ s', R (t.advance s).2 s' → Complies R Φ (t.advance s).1 s' := by
  cases t with
  | done a => exact ⟨hs, h⟩
  | step x next => exact h s hs

end Turns

end Thread

/-! ## Searches in steps -/

variable {S : Signature} {ρ : Type} {Φ : ρ → Prop}

open Solver (Advances)

namespace Solver

variable {v w : Solver} {source target : Handle} {a b : Ty}

theorem Exact.beginQuery (hv : v.Exact S) : Advances S v (beginQuery v).2 :=
  ⟨hv.journal _, .refl hv.consistent, id, Or.inl⟩

end Solver

end Subtyping
