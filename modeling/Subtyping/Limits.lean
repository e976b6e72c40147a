/-!
# Limits

How deep a search may nest and how many steps it may take. A `Limits` value is a pair of bounds;
each activity that is bounded has its own preset.
-/

namespace Subtyping

/-- Bounds on one search: how many items may be in progress at once, and how many may be started. -/
structure Limits where
  depth : Nat
  steps : Nat
deriving DecidableEq, Repr

namespace Limits

/-- Bounds of a substitution query. -/
def query : Limits := ⟨100, 100000⟩

/-- Bounds of putting arguments for parameters; only the depth is ever reached. -/
def instantiation : Limits := ⟨50, 100000⟩

/-- Bounds of a walk up a base chain; only the depth is ever reached. -/
def hierarchy : Limits := ⟨1024, 100000⟩

/-- The same bounds with another depth. -/
def withDepth (limits : Limits) (depth : Nat) : Limits :=
  { limits with depth }

/-- Counters stop here instead of wrapping around. -/
def counterCap : Nat := 4294967295

end Limits

end Subtyping
