import Subtyping.Universe.Display
import Subtyping.Universe.Error

/-!
# Declaring types

Declarations come first, bare; bases, interfaces and constraints are attached to them afterwards,
so declarations may refer to each other in any order. Each operation first decides, on the
universe as it is, whether it is allowed, and only then changes anything.
-/

namespace Subtyping.Universe

/-! ## What is allowed -/

/-- A name can be declared once. -/
def checkName (u : Universe) (name : String) : Except Error Unit := do
  if (u.catalog.named? name).isSome then
    throw (.nameTaken name)

/-- The declaration behind a type and its number. -/
def declarationOf (u : Universe) (ty : Handle) : Except Error (DeclId × Declaration) := do
  let some shape := u.shape? ty | throw (.unknownType ty)
  let some decl := shape.head? | throw (.notADeclaration (u.display ty))
  let some d := u.catalog.get? decl | throw (.unknownType ty)
  return (decl, d)

/-- The declaration behind its own type; other types built from it are refused. -/
def ownDeclarationOf (u : Universe) (ty : Handle) : Except Error (DeclId × Declaration) := do
  let (decl, d) ← u.declarationOf ty
  unless u.ownType? decl == some ty do
    throw (.notADeclaration (u.display ty))
  return (decl, d)

/-- The shape of the parameter at a position of a generic declaration. -/
def parameterShape (u : Universe) (definition : Handle) (index : Nat) : Except Error Shape := do
  let (decl, d) ← u.declarationOf definition
  unless d.isGeneric do
    throw (.notGeneric d.name)
  unless index < d.arity do
    throw (.noParameterAt d.name index)
  return .param decl index

/-- The position of the first parameter with a name. -/
def parameterIndex (u : Universe) (definition : Handle) (name : String) : Except Error Nat := do
  let (_, d) ← u.declarationOf definition
  let some index := d.parameters.findIdx? (·.name == name) | throw (.noParameterNamed d.name name)
  return index

/-- The shape of a generic declaration with known types for its parameters. -/
def applicationShape (u : Universe) (definition : Handle) (args : List Handle) :
    Except Error Shape := do
  let (decl, d) ← u.declarationOf definition
  unless d.isGeneric do
    throw (.notGeneric d.name)
  unless d.arity = args.length do
    throw (.wrongArity d.name d.arity args.length)
  if let some unknown := args.find? (!u.contains ·) then
    throw (.unknownType unknown)
  return .applied decl args

/-- The parameters inside a type must all belong to one declaration. -/
def checkScope (u : Universe) (owner : DeclId) (d : Declaration) (ty : Handle) :
    Except Error Unit := do
  if u.anyOwner (· != owner) ty then
    throw (.foreignParameter d.name (u.display ty))

/-- The declarations that head the base and the interfaces of a declaration. -/
def parents (u : Universe) (decl : DeclId) : List DeclId :=
  match u.catalog.get? decl with
  | some d => (d.base.toList ++ d.interfaces).filterMap u.head?
  | none => []

/-- Whether `goal` is met when going up from `frontier`, one generation a round; `seen` holds all
that was met before. A loop that goes up with a stack meets the same declarations in another order. -/
def climbs (u : Universe) (goal : DeclId) :
    (rounds : Nat) → (frontier seen : List DeclId) → Bool
  | 0, _, _ => false
  | rounds + 1, frontier, seen =>
    frontier.contains goal ||
      let next := (frontier.flatMap u.parents).eraseDups.filter (!seen.contains ·)
      !next.isEmpty && u.climbs goal rounds next (next ++ seen)

/-- Whether one declaration is another or inherits from it. A line of ancestors without
repetition is no longer than the catalog. -/
def inheritsFrom (u : Universe) (decl ancestor : DeclId) : Bool :=
  u.climbs ancestor (u.catalog.size + 1) [decl] [decl]

/-- Whether a type may become the base of a declaration; gives the declaration. -/
def checkBase (u : Universe) (declared base : Handle) : Except Error DeclId := do
  let (decl, d) ← u.ownDeclarationOf declared
  if d.isInterface then
    throw (.interfaceWithBase d.name)
  unless u.contains base do
    throw (.unknownType base)
  unless u.isBaseKind base do
    throw (.unusableBase d.name (u.display base))
  u.checkScope decl d base
  if (u.head? base).any (u.inheritsFrom · decl) then
    throw (.cyclicInheritance d.name (u.display base))
  return decl

/-- Whether a type may be listed among the interfaces of a declaration; gives the declaration. -/
def checkInterface (u : Universe) (declared interface : Handle) :
    Except Error (DeclId × Declaration) := do
  let (decl, d) ← u.ownDeclarationOf declared
  unless u.contains interface do
    throw (.unknownType interface)
  unless u.isInterface interface do
    throw (.notAnInterface (u.display interface))
  u.checkScope decl d interface
  if (u.head? interface).any (u.inheritsFrom · decl) then
    throw (.cyclicInheritance d.name (u.display interface))
  return (decl, d)

/-- Whether a type may bound a parameter; gives the owner and the position of the parameter. -/
def checkConstraint (u : Universe) (parameter bound : Handle) : Except Error (DeclId × Nat) := do
  let some shape := u.shape? parameter | throw (.unknownType parameter)
  let .param owner index := shape | throw (.notAParameter (u.display parameter))
  unless u.contains bound do
    throw (.unknownType bound)
  let some d := u.catalog.get? owner | throw (.unknownType parameter)
  u.checkScope owner d bound
  return (owner, index)

/-! ## Changes -/

/-- Adds the own type of a new declaration. -/
def addOwnType (u : Universe) (ty : Handle) : Universe :=
  { u with ownTypes := u.ownTypes.push ty }

/-- Forgets the interface closures, which a changed hierarchy may have made wrong. -/
def dropClosures (u : Universe) : Universe :=
  { u with closures := ∅ }

def withBase (u : Universe) (decl : DeclId) (base : Handle) : Universe :=
  { u with catalog := u.catalog.modify decl fun d => { d with base := some base } }

def withInterface (u : Universe) (decl : DeclId) (interface : Handle) : Universe :=
  { u with catalog := u.catalog.modify decl (·.withInterface interface) }

def withConstraint (u : Universe) (owner : DeclId) (index : Nat) (bound : Handle) : Universe :=
  { u with catalog := u.catalog.modify owner (·.withConstraint index bound) }

end Universe

open UniverseM

/-- Work on a universe that may be refused. What was done before the refusal stays done. -/
abbrev Declaring := ExceptT Universe.Error UniverseM

namespace Declaring

/-- Goes on only if the universe allows it. -/
def require {α : Type} (f : Universe → Except Universe.Error α) : Declaring α :=
  ExceptT.mk (view f)

/-- Registers a declaration under the next number. -/
def register (d : Declaration) : Declaring DeclId := do
  require (·.checkName d.name)
  let decl ← enroll d
  note (.registered decl d.kind d.name)
  return decl

/-- Introduces a declaration, bare, and gives its own type. The parameters become types first,
from left to right. -/
def declare (d : Declaration) : Declaring Handle := do
  let decl ← register d.stripped
  let ty ←
    if d.arity = 0 then
      intern (.plain decl)
    else do
      let args ← (List.range d.arity).mapM fun index => intern (.param decl index)
      intern (.applied decl args)
  modifyUniverse (·.addOwnType ty)
  note (.declared d.name d.arity ty)
  return ty

/-- A parameter of a generic declaration, by position. -/
def parameter (definition : Handle) (index : Nat) : Declaring Handle := do
  intern (← require (·.parameterShape definition index))

/-- A parameter of a generic declaration, by name. -/
def parameterNamed (definition : Handle) (name : String) : Declaring Handle := do
  parameter definition (← require (·.parameterIndex definition name))

/-- A generic declaration applied to arguments. -/
def apply (definition : Handle) (args : List Handle) : Declaring Handle := do
  intern (← require (·.applicationShape definition args))

/-- Sets the base of a class or struct. -/
def setBase (declared base : Handle) : Declaring Unit := do
  let decl ← require (·.checkBase declared base)
  modifyUniverse fun u => (u.withBase decl base).dropClosures

/-- Adds an interface to those a declaration lists. -/
def addInterface (declared interface : Handle) : Declaring Unit := do
  let (decl, d) ← require (·.checkInterface declared interface)
  unless d.interfaces.contains interface do
    modifyUniverse fun u => (u.withInterface decl interface).dropClosures

/-- Adds a bound to a parameter. -/
def addConstraint (parameter bound : Handle) : Declaring Unit := do
  let (owner, index) ← require (·.checkConstraint parameter bound)
  modifyUniverse fun u => (u.withConstraint owner index bound).dropClosures

end Declaring

end Subtyping
