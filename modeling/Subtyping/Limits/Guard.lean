import Std.Data.HashSet
import Subtyping.Limits

/-!
# Guards

A `Guard` watches a recursive search over keys. It knows which keys are in progress, so that a key
met again is seen to be a cycle, and it counts depth and steps against `Limits`. Every admission
with `Admission.entered` is to be followed by one `leave` of the same key; a `leave` of any other
key changes nothing but the mark `misused`.
-/

namespace Subtyping

/-- What a guard answers when a key asks to be entered. -/
inductive Admission where
  | entered
  /-- The key is in progress already. -/
  | cycle
  | depthExceeded
  | stepsExceeded
deriving DecidableEq, Repr

namespace Admission

/-- A limit refused the key. -/
def isExceeded : Admission → Bool
  | depthExceeded | stepsExceeded => true
  | entered | cycle => false

end Admission

/-- The keys in progress, with the counts that limits apply to. -/
structure Guard (α : Type) [BEq α] [Hashable α] where
  limits : Limits
  visiting : Std.HashSet α := ∅
  depth : Nat := 0
  steps : Nat := 0
  /-- Some limit has refused a key; this stays so. -/
  exceeded : Bool := false
  /-- Some key was left that was not in progress. -/
  misused : Bool := false

namespace Guard

variable {α : Type} [BEq α] [Hashable α]

/-- A guard with nothing in progress. -/
def new (limits : Limits) : Guard α :=
  { limits }

/-- Asks to enter a key. The step is counted whatever the answer; of several reasons to refuse,
the step limit comes first, then the depth limit, then the cycle. -/
def enter (g : Guard α) (key : α) : Admission × Guard α :=
  let g := { g with steps := min (g.steps + 1) Limits.counterCap }
  if g.limits.steps < g.steps then
    (.stepsExceeded, { g with exceeded := true })
  else if g.limits.depth ≤ g.depth then
    (.depthExceeded, { g with exceeded := true })
  else if g.visiting.contains key then
    (.cycle, g)
  else
    (.entered, { g with visiting := g.visiting.insert key, depth := g.depth + 1 })

/-- Leaves a key that is in progress. -/
def leave? (g : Guard α) (key : α) : Option (Guard α) :=
  if g.visiting.contains key then
    some { g with visiting := g.visiting.erase key, depth := g.depth - 1 }
  else
    none

/-- Leaves a key, or marks the guard as misused when the key is not in progress. -/
def leave (g : Guard α) (key : α) : Guard α :=
  (g.leave? key).getD { g with misused := true }

/-- The number of keys in progress. -/
def active (g : Guard α) : Nat :=
  g.visiting.size

/-- Ways to use a guard wrongly. -/
inductive Misuse where
  | notVisited
  | abandoned (active : Nat)
deriving DecidableEq, Repr

/-- The text of a misuse. -/
def Misuse.message : Misuse → String
  | notVisited => "RecursionGuard::leave() called with a key that is not being visited"
  | abandoned active => s!"RecursionGuard dropped with {active} active entries"

/-- Giving up a guard is wrong while keys are in progress. -/
def abandon? (g : Guard α) : Option Misuse :=
  if g.visiting.isEmpty then none else some (.abandoned g.active)

end Guard

end Subtyping
