import Subtyping.Substitution.Search

/-!
# Answers from the declarations

Can the source stand where the target is expected and, if so, as which closed form of the target?

* A target that is not generic needs a source without parameters that is natively assignable.
* A generic class or struct takes the first type on the source's base chain that is built from
  its definition, whatever the arguments.
* A generic interface takes the source itself, if that is built from its definition, or else the
  first interface of the source that is, whose arguments meet the target's arguments.

Meeting an argument may raise further questions of the same kind; how those are answered is a
parameter of everything here. So is the kind of work: whatever calls on the universe and steps on the
state of a search can be done in.
-/

namespace Subtyping.Search

open UniverseM

universe v

/-- How nested questions are answered. -/
abbrev Nested (m : Type → Type v) := Handle → Handle → m (Option Handle)

variable {m : Type → Type v} [Monad m] [MonadLiftT UniverseM m]

/-- Whether an argument meets a bound: by equality, by native assignability or by substitution. -/
def meetsBound (nested : Nested m) (arg bound : Handle) : m Bool := do
  if bound = arg then
    return true
  else if ← isAssignable arg bound then
    return true
  else
    return (← nested arg bound).isSome

/-- Whether an argument meets all bounds, asked in order up to the first that it does not meet. -/
def meetsBounds (nested : Nested m) (arg : Handle) : List Handle → m Bool
  | [] => return true
  | bound :: bounds => do
    if ← meetsBound nested arg bound then
      meetsBounds nested arg bounds
    else
      return false

/-- The argument that results from meeting a target's argument. A parameter takes the argument as
it is, once its bounds are met; any other target takes it if natively assignable, or else what it
can be substituted as. -/
def matchArgument (nested : Nested m) (arg target : Handle) : m (Option Handle) := do
  if ← view (·.isParameter target) then
    let bounds ← view (·.constraints target)
    return if ← meetsBounds nested arg bounds then some arg else none
  else if target = arg then
    return some arg
  else if ← isAssignable arg target then
    return some arg
  else
    nested arg target

/-- Matches arguments position by position, up to the first that fails. -/
def matchArguments (nested : Nested m) : List (Handle × Handle) → m (Option (List Handle))
  | [] => return some []
  | (arg, target) :: rest => do
    let some matched ← matchArgument nested arg target | return none
    let some others ← matchArguments nested rest | return none
    return some (matched :: others)

/-- Matches the arguments of a candidate against those of a target that has the same definition,
and builds the closed form of the target that they give. -/
def satisfy (nested : Nested m) (candidate target : Handle) : m (Option Handle) := do
  let args ← view (·.arguments candidate)
  let targets ← view (·.arguments target)
  if args.length = targets.length then
    let some matched ← matchArguments nested (args.zip targets) | return none
    let some definition ← view (·.definition? target) | return none
    makeGeneric definition matched
  else
    return none

/-- The first type with a given definition on a base chain, at most `steps` types along it;
`origin` is where the walk began. -/
def firstWithDefinition [MonadLiftT SearchM m] (definition origin : Handle) :
    (steps : Nat) → Handle → m (Option Handle)
  | 0, _ => do
    refuse
    note (.walkTruncated origin Limits.hierarchy.depth)
    return none
  | steps + 1, ty => do
    if (← view (·.definition? ty)) = some definition then
      return some ty
    else
      match ← baseType ty with
      | some base => firstWithDefinition definition origin steps base
      | none => return none

/-- The first candidate with a given definition that satisfies a target. -/
def firstSatisfying (nested : Nested m) (definition target : Handle) :
    List Handle → m (Option Handle)
  | [] => return none
  | candidate :: candidates => do
    if (← view (·.definition? candidate)) = some definition then
      match ← satisfy nested candidate target with
      | some resolved => return some resolved
      | none => firstSatisfying nested definition target candidates
    else
      firstSatisfying nested definition target candidates

/-- Answers a question on a target without arguments. -/
def resolveClosed (source target : Handle) : m (Option Handle) := do
  if ← view (·.isOpen source) then
    return none
  else if ← isAssignable source target then
    return some source
  else
    return none

/-- Answers a question on a generic interface. -/
def resolveInterface (nested : Nested m) (definition source target : Handle) :
    m (Option Handle) := do
  match ← firstSatisfying nested definition target [source] with
  | some resolved => return some resolved
  | none => firstSatisfying nested definition target (← interfaces source)

/-- Answers a question from the declarations. -/
def resolve [MonadLiftT SearchM m] (nested : Nested m) (source target : Handle) :
    m (Option Handle) := do
  if ← view (·.isGeneric target) then
    let some definition ← view (·.definition? target) | return none
    if ← view (·.isInterface target) then
      resolveInterface nested definition source target
    else
      firstWithDefinition definition source Limits.hierarchy.depth source
  else
    resolveClosed source target

end Subtyping.Search
