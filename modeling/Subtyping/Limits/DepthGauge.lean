import Subtyping.Limits

/-!
# Depth gauges

A `DepthGauge` bounds nesting alone: it does not ask what is nested. Every `enter` that is granted
is to be followed by one `leave`; a `leave` at depth zero changes nothing but the mark `misused`.
-/

namespace Subtyping

/-- A nesting depth and its limit. -/
structure DepthGauge where
  limit : Nat
  depth : Nat := 0
  /-- Some `enter` was refused; this stays so. -/
  exceeded : Bool := false
  /-- Some `leave` came at depth zero. -/
  misused : Bool := false
deriving DecidableEq, Repr

namespace DepthGauge

/-- A gauge at depth zero. -/
def new (limit : Nat) : DepthGauge :=
  { limit }

/-- Goes one level deeper, unless the limit is reached. -/
def enter (g : DepthGauge) : Bool × DepthGauge :=
  if g.limit ≤ g.depth then
    (false, { g with exceeded := true })
  else
    (true, { g with depth := g.depth + 1 })

/-- Comes up one level. -/
def leave? (g : DepthGauge) : Option DepthGauge :=
  if g.depth = 0 then none else some { g with depth := g.depth - 1 }

/-- Comes up one level, or marks the gauge as misused at depth zero. -/
def leave (g : DepthGauge) : DepthGauge :=
  g.leave?.getD { g with misused := true }

/-- Ways to use a gauge wrongly. -/
inductive Misuse where
  | leftAtZero
  | abandoned (depth : Nat)
deriving DecidableEq, Repr

/-- The text of a misuse. -/
def Misuse.message : Misuse → String
  | leftAtZero => "DepthCounter::leave() called at depth 0"
  | abandoned depth => s!"DepthCounter dropped at depth {depth}"

/-- Giving up a gauge is wrong below depth zero. -/
def abandon? (g : DepthGauge) : Option Misuse :=
  if g.depth = 0 then none else some (.abandoned g.depth)

end DepthGauge

end Subtyping
