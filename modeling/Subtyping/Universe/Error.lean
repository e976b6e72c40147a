import Subtyping.Handle

/-!
# Refused declarations

Why a universe refuses an operation. Each cause is a constructor with the names it speaks of;
`Universe.Error.message` is the one place that words them.
-/

namespace Subtyping.Universe

/-- Why an operation on declarations is refused. Types are given by their text. -/
inductive Error where
  | nameTaken (name : String)
  | unknownType (ty : Handle)
  | notADeclaration (type : String)
  | notGeneric (name : String)
  | wrongArity (name : String) (expected found : Nat)
  | noParameterAt (name : String) (index : Nat)
  | noParameterNamed (name param : String)
  | notAParameter (type : String)
  | interfaceWithBase (name : String)
  | unusableBase (name base : String)
  | notAnInterface (type : String)
  | foreignParameter (owner type : String)
  | cyclicInheritance (child parent : String)
deriving DecidableEq, Repr

/-- The text of an error. -/
def Error.message : Error → String
  | nameTaken name => s!"type `{name}` is already declared"
  | unknownType ty => s!"unknown type {ty.text}"
  | notADeclaration type => s!"`{type}` is not a type declaration"
  | notGeneric name => s!"`{name}` is not generic"
  | wrongArity name expected found =>
    s!"`{name}` expects {expected} type argument(s), found {found}"
  | noParameterAt name index => s!"`{name}` has no type parameter at index {index}"
  | noParameterNamed name param => s!"`{name}` has no type parameter named `{param}`"
  | notAParameter type => s!"`{type}` is not a generic parameter"
  | interfaceWithBase name => s!"interface `{name}` cannot have a base type"
  | unusableBase name base => s!"`{base}` cannot be used as the base type of `{name}`"
  | notAnInterface type => s!"`{type}` is not an interface"
  | foreignParameter owner type =>
    s!"`{type}` mentions type parameters that do not belong to `{owner}`"
  | cyclicInheritance child parent =>
    s!"`{child}` inheriting from `{parent}` would create a cycle"

end Subtyping.Universe
