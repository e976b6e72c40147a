import Std.Data.HashMap
import Subtyping.Handle

/-!
# Recorded verdicts

What is known about pairs of types: the type that the source stands for the target as, or that
there is none. A verdict, once recorded, stays until all are cleared. Look-ups are counted.
-/

namespace Subtyping

/-- The verdict on a pair. -/
inductive Verdict where
  /-- The source can stand for the target, as this type. -/
  | substitute (ty : Handle)
  | noSubstitution
deriving DecidableEq, Repr

namespace Verdict

def ofSubstitution : Option Handle → Verdict
  | some ty => substitute ty
  | none => noSubstitution

def substitution? : Verdict → Option Handle
  | substitute ty => some ty
  | noSubstitution => none

@[simp]
theorem substitution?_ofSubstitution (r : Option Handle) : (ofSubstitution r).substitution? = r := by
  cases r <;> rfl

@[simp]
theorem ofSubstitution_substitution? (v : Verdict) : ofSubstitution v.substitution? = v := by
  cases v <;> rfl

end Verdict

/-- Verdicts by pair, with the number of look-ups that found one and that found none. -/
structure Verdicts where
  entries : Std.HashMap Pair Verdict := ∅
  hits : Nat := 0
  misses : Nat := 0

namespace Verdicts

/-- The number of verdicts recorded. -/
def size (v : Verdicts) : Nat :=
  v.entries.size

def isEmpty (v : Verdicts) : Bool :=
  v.entries.isEmpty

/-- Looks a pair up, and counts it. -/
def lookup (v : Verdicts) (pair : Pair) : Option Verdict × Verdicts :=
  match v.entries[pair]? with
  | some verdict => (some verdict, { v with hits := v.hits + 1 })
  | none => (none, { v with misses := v.misses + 1 })

/-- Records a verdict unless there is one already; gives the verdict that now stands. -/
def record (v : Verdicts) (pair : Pair) (verdict : Verdict) : Verdict × Verdicts :=
  match v.entries[pair]? with
  | some standing => (standing, v)
  | none => (verdict, { v with entries := v.entries.insert pair verdict })

theorem lookup_fst (v : Verdicts) (pair : Pair) : (v.lookup pair).1 = v.entries[pair]? := by
  unfold lookup
  split <;> simp_all

/-- Looking a pair up changes the counts alone. -/
theorem entries_lookup (v : Verdicts) (pair : Pair) : (v.lookup pair).2.entries = v.entries := by
  unfold lookup
  split <;> rfl

/-- The verdict that stands after recording is the one on record. -/
theorem getElem?_entries_record (v : Verdicts) (pair : Pair) (verdict : Verdict) :
    (v.record pair verdict).2.entries[pair]? = some (v.record pair verdict).1 := by
  unfold record
  split
  · assumption
  · simp

end Verdicts

end Subtyping
