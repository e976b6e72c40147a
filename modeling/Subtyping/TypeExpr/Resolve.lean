import Subtyping.Failure
import Subtyping.Universe.Hierarchy

/-!
# From expressions to types

An expression is resolved in a universe, and possibly in the scope of a generic declaration, whose
parameter names come before declared names. Arguments are resolved from left to right and become
types of the universe even if what they are arguments of does not resolve.
-/

namespace Subtyping.TypeExpr

open Attempt

/-- The type that a declared name introduces. -/
def declared (name : String) : Attempt Handle := do
  let some ty ← view (·.lookup name) | fail (.unknownName name)
  return ty

/-- The parameter with a name, if the scope has one. -/
def parameterIn? (scope : Option Handle) (name : String) : Attempt (Option Handle) := do
  let some owner := scope | return none
  return (← (Declaring.parameterNamed owner name).run).toOption

/-- The type of a name that stands alone. -/
def resolveName (scope : Option Handle) (name : String) : Attempt Handle := do
  if let some param ← parameterIn? scope name then
    return param
  let ty ← declared name
  if ← view (·.isGeneric ty) then
    fail (.bareGeneric name (← view (·.arguments ty)).length)
  return ty

/-- The open definition of a name with empty slots. -/
def resolveSlots (name : String) (arity : Nat) : Attempt Handle := do
  let definition ← declared name
  let expected := (← view (·.arguments definition)).length
  unless (← view (·.isGeneric definition)) && expected == arity do
    fail (.wrongSlots name expected arity)
  return definition

mutual

/-- The type that an expression stands for. -/
def resolve (scope : Option Handle) : TypeExpr → Attempt Handle
  | .name n => resolveName scope n
  | .apply n args => do
    let definition ← declared n
    let args ← resolveAll scope args
    within (.applying n) (ofDeclaring (Declaring.apply definition args))
  | .slots n arity => resolveSlots n arity

def resolveAll (scope : Option Handle) : List TypeExpr → Attempt (List Handle)
  | [] => return []
  | e :: es => do
    let first ← resolve scope e
    return first :: (← resolveAll scope es)

end

/-- The type that a text stands for. -/
def resolveText (scope : Option Handle) (input : String) : Attempt Handle :=
  match parse input with
  | .ok e => resolve scope e
  | .error error => fail (.expression input error)

end Subtyping.TypeExpr
