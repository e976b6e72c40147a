/-!
# Handles and shapes

Types are referred to by number. A `Shape` says how a type is built from a declaration and from
other types; the type table of a universe gives each shape one `Handle`. A `Pair` is a question
about two types: can the source stand where the target is expected?
-/

namespace Subtyping

/-- The number of a type in its universe; numbers start at one. -/
structure Handle where
  num : Nat
deriving DecidableEq, Hashable, Repr

/-- The text that stands for a type whose name is not known. -/
def Handle.text (ty : Handle) : String :=
  s!"#{ty.num}"

/-- The number of a declaration in its universe; numbers start at one. -/
structure DeclId where
  num : Nat
deriving DecidableEq, Hashable, Repr

/-- How a type is built. -/
inductive Shape where
  /-- The type of a declaration without parameters. -/
  | plain (decl : DeclId)
  /-- A generic declaration with one argument for each of its parameters. -/
  | applied (decl : DeclId) (args : List Handle)
  /-- A parameter of a generic declaration, by position. -/
  | param (owner : DeclId) (index : Nat)
deriving DecidableEq, Hashable, Repr

/-- The declaration that heads a type; a parameter has none. -/
def Shape.head? : Shape → Option DeclId
  | plain decl => some decl
  | applied decl _ => some decl
  | param _ _ => none

/-- A source type and the target that it is compared with. -/
structure Pair where
  source : Handle
  target : Handle
deriving DecidableEq, Hashable, Repr

end Subtyping
