import Subtyping.Proofs.Mirroring
import Subtyping.Proofs.SearchFrame
import Subtyping.Run

/-!
# Threads

Two threads on related states go along with each other if each step of the one has its image in a step of
the other (`Thread.Mirrors`). So do several threads that take turns, whatever the schedule
(`Thread.interleave_mirrors`).

A search in steps that nobody comes in between is the search (`Search.evaluateWith_runs`), so that queries
without a schedule are answered one after the other (`Question.interleave_nil`).
-/

namespace Subtyping

universe u v

namespace Thread

variable {σ σ' α α' : Type} {R : σ → σ' → Prop} {f : α → α'}

/-! ## Threads on related states -/

/-- From related states, the threads take steps that lead to related states, up to results that
correspond. -/
inductive Mirrors (R : σ → σ' → Prop) (f : α → α') : Thread σ α → Thread σ' α' → Prop where
  | done (a : α) : Mirrors R f (.done a) (.done (f a))
  | step {β β' : Type} {x : StateM σ β} {x' : StateM σ' β'} {next : β → Thread σ α}
    {next' : β' → Thread σ' α'} (after : ∀ s s', R s s' → R (x s).2 (x' s').2)
    (goes : ∀ s s', R s s' → Mirrors R f (next (x s).1) (next' (x' s').1)) :
    Mirrors R f (.step x next) (.step x' next')

theorem Mirrors.run {t : Thread σ α} {t' : Thread σ' α'} (h : Mirrors R f t t') :
    Subtyping.Mirrors R f t.run t'.run := by
  induction h with
  | done a => exact .pure rfl
  | step after goes ih => exact fun s s' hrel => ih s s' hrel _ _ (after s s' hrel)

theorem Mirrors.advance {t : Thread σ α} {t' : Thread σ' α'} (h : Mirrors R f t t') {s : σ} {s' : σ'}
    (hrel : R s s') :
    Mirrors R f (t.advance s).1 (t'.advance s').1 ∧ R (t.advance s).2 (t'.advance s').2 := by
  cases h with
  | done a => exact ⟨.done a, hrel⟩
  | step after goes => exact ⟨goes s s' hrel, after s s' hrel⟩

end Thread

namespace Steps

variable {σ σ' τ τ' α α' β β' : Type}

/-- Parts of threads that go along with each other, given that the threads do once the parts have given
related results. -/
def Mirrors (R : σ → σ' → Prop) (f : τ → τ') (A : α → α' → Prop) (x : Steps σ τ α)
    (x' : Steps σ' τ' α') : Prop :=
  ∀ next next', (∀ a a', A a a' → Thread.Mirrors R f (next a) (next' a')) →
    Thread.Mirrors R f (x next) (x' next')

namespace Mirrors

variable {R : σ → σ' → Prop} {f : τ → τ'} {A : α → α' → Prop} {B : β → β' → Prop}

theorem pure {a : α} {a' : α'} (h : A a a') :
    Mirrors R f A (pure a : Steps σ τ α) (pure a' : Steps σ' τ' α') :=
  fun _ _ hnext => hnext a a' h

theorem bind {x : Steps σ τ α} {x' : Steps σ' τ' α'} {k : α → Steps σ τ β} {k' : α' → Steps σ' τ' β'}
    (hx : Mirrors R f A x x') (hk : ∀ a a', A a a' → Mirrors R f B (k a) (k' a')) :
    Mirrors R f B (x >>= k) (x' >>= k') :=
  fun next next' hnext => hx _ _ fun a a' h => hk a a' h next next' hnext

/-- What a step gives may depend on the states that it meets. -/
theorem step_bind {x : StateM σ α} {x' : StateM σ' α'} {k : α → Steps σ τ β} {k' : α' → Steps σ' τ' β'}
    (h : ∀ s s', R s s' → Mirrors R f B (k (x s).1) (k' (x' s').1) ∧ R (x s).2 (x' s').2) :
    Mirrors R f B ((liftM x : Steps σ τ α) >>= k) ((liftM x' : Steps σ' τ' α') >>= k') :=
  fun next next' hnext => .step (fun s s' hrel => (h s s' hrel).2)
    fun s s' hrel => (h s s' hrel).1 next next' hnext

theorem step {x : StateM σ α} {x' : StateM σ' α'}
    (h : ∀ s s', R s s' → A (x s).1 (x' s').1 ∧ R (x s).2 (x' s').2) :
    Mirrors R f A (liftM x : Steps σ τ α) (liftM x' : Steps σ' τ' α') :=
  step_bind fun s s' hrel => ⟨.pure (h s s' hrel).1, (h s s' hrel).2⟩

theorem thread {x : Steps σ τ τ} {x' : Steps σ' τ' τ'} (h : Mirrors R f (fun a a' => a' = f a) x x') :
    Thread.Mirrors R f x.thread x'.thread := by
  refine h _ _ fun a _ heq => ?_
  rw [heq]
  exact .done a

end Mirrors

end Steps

/-! ## Steps with nobody in between -/

namespace Search

open UniverseM

variable {ρ α β : Type}

/-- Work in steps that nobody comes in between does the same as work within a search. -/
def Runs (x : SharedM ρ α) (x' : SearchM α) : Prop :=
  ∀ s next, (x s.own next).run s.solver = (next ((x' s).1, (x' s).2.own)).run (x' s).2.solver

namespace Runs

theorem pure (a : α) : Runs (pure a : SharedM ρ α) (pure a) :=
  fun _ _ => rfl

theorem bind {x : SharedM ρ α} {x' : SearchM α} {f : α → SharedM ρ β} {f' : α → SearchM β}
    (hx : Runs x x') (hf : ∀ a, Runs (f a) (f' a)) : Runs (x >>= f) (x' >>= f') :=
  fun s next => (hx s _).trans (hf _ _ next)

/-- A single step. -/
theorem step (x : SearchM α) : Runs (liftM x : SharedM ρ α) x :=
  fun _ _ => rfl

theorem lift (x : UniverseM α) : Runs (liftM x : SharedM ρ α) (liftM x) :=
  fun _ _ => rfl

end Runs

theorem congruence_runs : Congruence (SharedM ρ) SearchM Runs where
  pure := .pure
  bind := .bind
  lift _ := .lift _
  refuse := .step _

theorem substituteBy_runs {ask : Pair → SharedM ρ (Option Handle)}
    {ask' : Pair → SearchM (Option Handle)} (h : ∀ pair, Runs (ask pair) (ask' pair))
    (source target : Handle) :
    Runs (substituteBy ask source target) (substituteBy ask' source target) := by
  refine Congruence.branch (P := Runs) (.pure _) (.bind (.step _) fun found => ?_)
  cases found with
  | none => exact h _
  | some verdict => exact .bind (.lift _) fun _ => .pure _

theorem settleWith_runs (pair : Pair) (place before : Nat) (around : Option Nat)
    (computed : Option Handle) :
    Runs (settleWith .plain pair place around before computed : SharedM ρ (Option Handle))
      (settle pair place around before computed) := by
  refine .bind (.step _) fun ended => Congruence.branch (P := Runs) ?_ ?_
  · exact .bind (.lift _) fun _ => .pure _
  · exact .bind (.step _) fun _ => .bind (.lift _) fun _ => .pure _

theorem assumeWith_runs (pair : Pair) :
    Runs (assumeWith .plain pair : SharedM ρ (Option Handle)) (assume pair) := by
  have hplace : Runs (placeWith .plain pair : SharedM ρ Nat) (placeWith .plain pair) := by
    refine .bind (.step _) fun place => ?_
    cases place with
    | some place => exact .pure _
    | none => exact .pure _
  exact .bind hplace fun _ => .bind (.step _) fun _ => .bind (.lift _) fun _ => .pure _

theorem letInWith_runs (pair : Pair) {answer : SharedM ρ (Option Handle)}
    {answer' : SearchM (Option Handle)} (h : Runs answer answer') :
    Runs (letInWith .plain pair answer) (letIn pair answer') := by
  refine .bind (.step _) fun before => .bind (.step _) fun admission => ?_
  have hnote : Runs (Hooks.plain.refused before pair admission : SharedM ρ Unit)
      (Hooks.plain.refused before pair admission) := by
    cases before with
    | true => exact .pure _
    | false => exact .step _
  cases admission with
  | depthExceeded => exact .bind (.step _) fun _ => .bind hnote fun _ => .pure _
  | stepsExceeded => exact .bind (.step _) fun _ => .bind hnote fun _ => .pure _
  | cycle => exact assumeWith_runs pair
  | entered => exact h

theorem answerWith_runs (pair : Pair) {nested : Nested (SharedM ρ)} {nested' : Nested SearchM}
    (h : ∀ source target, Runs (nested source target) (nested' source target)) :
    Runs (answerWith .plain nested pair) (answerBy nested' pair) :=
  .bind (.step _) fun _ => .bind (.step _) fun _ => .bind (.pure _) fun _ =>
    .bind (congruence_runs.resolve h _ _) fun _ => .bind (.pure _) fun _ => settleWith_runs _ _ _ _ _

/-- A search in steps that nobody comes in between is the search. -/
theorem evaluateWith_runs (levels : Nat) (pair : Pair) :
    Runs (evaluateWith .plain levels pair : SharedM ρ (Option Handle)) (evaluate levels pair) := by
  induction levels generalizing pair with
  | zero => exact letInWith_runs pair (.bind (.step _) fun _ => .pure _)
  | succ levels ih => exact letInWith_runs pair (answerWith_runs pair (substituteBy_runs ih))

theorem checkWith_runs (source target : Option Handle) :
    Runs (checkWith .plain source target : SharedM ρ Answer) (check source target) := by
  cases source with
  | none => exact .pure _
  | some source =>
    cases target with
    | none => exact .pure _
    | some target =>
      refine Congruence.branch (P := Runs) (.pure _) (.bind (.step _) fun found => ?_)
      cases found with
      | some verdict => exact .pure _
      | none =>
        refine .bind (.bind (.step _) fun _ => evaluateWith_runs _ _) fun _ => ?_
        exact .bind (.step _) fun _ => .pure _

end Search

namespace Question

/-- A question that is answered in steps with nobody in between is answered as a whole. -/
theorem run_evaluateInSteps (limits : Limits) (q : Question) :
    (q.evaluateInSteps limits).run = q.evaluate limits := by
  funext s
  have hcheck := Search.checkWith_runs (ρ := Outcome) (some q.source) (some q.target)
  exact hcheck (.start ⟨⟨s.chronicle.univ, s.chronicle.journal.beginQuery.2.note
    (.queryStarted (s.chronicle.journal.queries + 1) (some q.source) (some q.target))⟩, s.verdicts⟩
      limits) _

/-- Without a schedule, questions are answered one after the other. -/
theorem interleave_nil (limits : Limits) (qs : List Question) :
    Thread.interleave (qs.map (·.evaluateInSteps limits)) [] = qs.mapM (·.evaluate limits) := by
  show (qs.map (·.evaluateInSteps limits)).mapM Thread.run = _
  rw [List.mapM_map]
  exact congrArg (qs.mapM ·) (funext fun q => q.run_evaluateInSteps limits)

end Question

end Subtyping
