import Subtyping.Declaration

/-!
# Manifests

The contents of a universe file: declarations whose supertypes and constraints are still texts,
queries to be answered, and options.
-/

namespace Subtyping

namespace Manifest

/-- A generic parameter: a name, or a name with bounds. -/
inductive Param where
  | plain (name : String)
  | bounded (name : String) (constraints : List String)
deriving DecidableEq, Repr

def Param.name : Param → String
  | plain name => name
  | bounded name _ => name

def Param.constraints : Param → List String
  | plain _ => []
  | bounded _ constraints => constraints

/-- A declaration. -/
structure Decl where
  name : String
  kind : Kind
  params : List Param := []
  base : Option String := none
  interfaces : List String := []
deriving DecidableEq, Repr

/-- A query and what it is expected to give. -/
structure Query where
  source : String
  target : String
  /-- Whether the two are expected to be related. -/
  expect : Option Bool := none
  /-- The type that is expected to be found. -/
  substitution : Option String := none
deriving DecidableEq, Repr

/-- Options of a run. -/
structure Options where
  maxDepth : Option Nat := none
deriving DecidableEq, Repr

end Manifest

/-- The contents of a universe file. -/
structure Manifest where
  decls : List Manifest.Decl := []
  queries : List Manifest.Query := []
  options : Manifest.Options := {}
deriving DecidableEq, Repr

end Subtyping
