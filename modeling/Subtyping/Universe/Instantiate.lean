import Subtyping.Limits.DepthGauge
import Subtyping.Universe.Basic

/-!
# Putting arguments for parameters

`UniverseM.instantiate` replaces the parameters of one declaration inside a type. It goes at most
`Limits.instantiation.depth` applications deep; what is nested below that stays as it is, and the
journal says so.
-/

namespace Subtyping.UniverseM

/-- Work on a universe that keeps track of how deep it is nested. -/
abbrev Nested := StateT DepthGauge UniverseM

/-- Goes one level deeper if the gauge allows it. -/
def Nested.enter : Nested Bool :=
  modifyGet DepthGauge.enter

/-- Comes up one level. -/
def Nested.leave : Nested Unit :=
  modify DepthGauge.leave

/-- Replaces the parameters of `owner` inside a type by `args`, as deep as the gauge allows;
`levels` is what it allows from here. A parameter without an argument stays, and a type in which
nothing changes is given back as it is. -/
def fill (owner : DeclId) (args : List Handle) (levels : Nat) (ty : Handle) : Nested Handle := do
  match ← view (·.shape? ty) with
  | some (.param o index) =>
    return if o = owner then args[index]?.getD ty else ty
  | some (.applied decl old) =>
    if ← Nested.enter then
      match levels with
      | 0 =>
        Nested.leave
        return ty
      | levels + 1 =>
        let new ← old.mapM (fill owner args levels)
        Nested.leave
        if new = old then return ty else intern (.applied decl new)
    else
      return ty
  | _ => return ty

/-- Replaces the parameters of `owner` inside a type by `args`. -/
def instantiate (ty : Handle) (owner : DeclId) (args : List Handle) : UniverseM Handle := do
  let limit := Limits.instantiation.depth
  let (result, gauge) ← (fill owner args limit ty).run (.new limit)
  if gauge.exceeded then
    note (.nestingLimitReached ty)
  return result

end Subtyping.UniverseM
