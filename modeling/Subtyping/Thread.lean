/-!
# Threads

A `Thread` is work on a state that it shares with others, cut into steps: a step is done as a whole, and
between two steps the others may change the state. Several threads run on one state by turns
(`Thread.interleave`), where the schedule says whose turn it is. `Steps` is the monad in which threads are
written.
-/

namespace Subtyping

/-- Work in steps on a shared state. -/
inductive Thread (σ α : Type) : Type 1 where
  | done (a : α)
  | step {β : Type} (x : StateM σ β) (next : β → Thread σ α)

namespace Thread

variable {σ α : Type}

/-- Takes all steps, with nobody in between. -/
def run : Thread σ α → StateM σ α
  | done a => pure a
  | step x next => do run (next (← x))

/-- Takes the next step, if there is one. -/
def advance : Thread σ α → σ → Thread σ α × σ
  | done a, s => (done a, s)
  | step x next, s =>
    let (b, s) := x s
    (next b, s)

/-- Runs threads on one state and gives their results, in the order of the threads. Each turn is a step of
the thread with that number, if there is one; after the last turn the threads run to their ends, one after
the other. -/
def interleave (threads : List (Thread σ α)) : (turns : List Nat) → StateM σ (List α)
  | [] => threads.mapM run
  | turn :: turns => fun s =>
    match threads[turn]? with
    | some thread =>
      let (thread, s) := thread.advance s
      interleave (threads.set turn thread) turns s
    | none => interleave threads turns s

end Thread

/-- Work in steps that is part of a thread with a result in `ρ`, given how the thread goes on after it. -/
def Steps (σ ρ α : Type) : Type 1 :=
  (α → Thread σ ρ) → Thread σ ρ

namespace Steps

variable {σ ρ α : Type}

instance : Monad (Steps σ ρ) where
  pure a := fun next => next a
  bind x f := fun next => x fun a => f a next

/-- Work on the state is a single step. -/
instance : MonadLift (StateM σ) (Steps σ ρ) where
  monadLift x := fun next => .step x next

/-- The thread that ends after the work. -/
def thread (x : Steps σ α α) : Thread σ α :=
  x .done

end Steps

end Subtyping
