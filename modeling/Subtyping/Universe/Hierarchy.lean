import Subtyping.Universe.Declare
import Subtyping.Universe.Instantiate

/-!
# The hierarchy of types

A type has at most one base and a list of declared interfaces, which its arguments are put into. A
parameter has its bounds instead. From these steps come the base chain, the closure of interfaces
and native assignability. Asking for a supertype may add it to the universe, so all of this runs in
`UniverseM`.

The closure lists the interfaces of the base chain first, root-most ancestor first, then the
type's own, each one followed at once by those it inherits; of repetitions the first stays.
-/

namespace Subtyping.UniverseM

/-- The direct base of a type; for a parameter, its first bound that is a class or struct. -/
def baseType (ty : Handle) : UniverseM (Option Handle) := do
  let u ← view id
  match u.shape? ty with
  | some (.plain decl) =>
    return (u.catalog.get? decl).bind (·.base)
  | some (.applied decl args) =>
    match (u.catalog.get? decl).bind (·.base) with
    | some base => some <$> instantiate base decl args
    | none => return none
  | some (.param _ _) =>
    return (u.constraints ty).find? u.isBaseKind
  | none => return none

/-- The interfaces that a type declares itself; for a parameter, its bounds that are interfaces. -/
def declaredInterfaces (ty : Handle) : UniverseM (List Handle) := do
  let u ← view id
  match u.shape? ty with
  | some (.plain decl) =>
    return ((u.catalog.get? decl).map (·.interfaces)).getD []
  | some (.applied decl args) =>
    let interfaces := ((u.catalog.get? decl).map (·.interfaces)).getD []
    interfaces.mapM fun interface => instantiate interface decl args
  | some (.param _ _) =>
    return (u.constraints ty).filter u.isInterface
  | none => return []

/-- A type and its bases, at most `steps` of them; `origin` is where the walk began. -/
def chainFrom (origin : Handle) : (steps : Nat) → Handle → UniverseM (List Handle)
  | 0, _ => do
    note (.chainTruncated origin Limits.hierarchy.depth)
    return []
  | steps + 1, ty => do
    match ← baseType ty with
    | some base => return ty :: (← chainFrom origin steps base)
    | none => return [ty]

/-- A type followed by its base, the base of that, and so on. -/
def baseChain (ty : Handle) : UniverseM (List Handle) :=
  chainFrom ty Limits.hierarchy.depth ty

/-- Adds an interface and all that it inherits to those seen, going at most `generations` up, depth
first as a loop with a stack does. -/
def collect : (generations : Nat) → (seen : List Handle) → Handle → UniverseM (List Handle)
  | 0, seen, _ => return seen
  | generations + 1, seen, interface => do
    if seen.contains interface then
      return seen
    else
      let inherited ← declaredInterfaces interface
      inherited.foldlM (collect generations) (seen ++ [interface])

/-- All interfaces of a type, from its declarations. Each generation is headed by another
declaration, so there are no more generations than declarations. -/
def computeInterfaces (ty : Handle) : UniverseM (List Handle) := do
  let chain ← baseChain ty
  let generations ← view (·.catalog.size)
  chain.reverse.foldlM (fun seen ancestor => do
    let declared ← declaredInterfaces ancestor
    declared.foldlM (collect generations) seen) []

/-- All interfaces of a type. A closure is computed once and kept until a declaration changes. -/
def interfaces (ty : Handle) : UniverseM (List Handle) := do
  match ← view (·.closures[ty]?) with
  | some closure => return closure
  | none =>
    let closure ← computeInterfaces ty
    modifyUniverse fun u => { u with closures := u.closures.insert ty closure }
    return closure

/-- Native assignability: a type is assignable to itself, to the types of its base chain and to
its interfaces. -/
def isAssignable (source target : Handle) : UniverseM Bool := do
  if source = target then
    return true
  else
    match ← view (·.kind? target) with
    | some .interfaceKind => return (← interfaces source).contains target
    | some .classKind | some .structKind => return (← baseChain source).contains target
    | none => return false

/-- A generic definition applied to arguments, if it is one and they fit. -/
def makeGeneric (definition : Handle) (args : List Handle) : UniverseM (Option Handle) := do
  if ← view (·.isGeneric definition) then
    return (← (Declaring.apply definition args).run).toOption
  else
    return none

end Subtyping.UniverseM
