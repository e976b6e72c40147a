import Subtyping.Event
import Subtyping.TypeTable

/-!
# Universes

A `Universe` holds declarations and the types built from them. This module has its data and what
can be read off it without changing it. Operations that add types or declarations run in
`UniverseM`, a state monad over a `Chronicle`: a universe together with the journal of what has
happened to it.
-/

namespace Subtyping

/-- Declarations, interned types, the own type of each declaration (in the order of declaration),
and the interface closures computed so far. -/
structure Universe where
  catalog : Catalog := {}
  table : TypeTable := {}
  ownTypes : Array Handle := #[]
  closures : Std.HashMap Handle (List Handle) := ∅

namespace Universe

/-! ## Types -/

def shape? (u : Universe) (ty : Handle) : Option Shape :=
  u.table.shape? ty

/-- Whether a handle stands for a type. -/
def contains (u : Universe) (ty : Handle) : Bool :=
  (u.shape? ty).isSome

def typeCount (u : Universe) : Nat :=
  u.table.size

/-- The declaration that heads a type. -/
def head? (u : Universe) (ty : Handle) : Option DeclId :=
  (u.shape? ty).bind Shape.head?

def kind? (u : Universe) (ty : Handle) : Option Kind :=
  (u.head? ty).bind fun decl => (u.catalog.get? decl).map (·.kind)

def isInterface (u : Universe) (ty : Handle) : Bool :=
  u.kind? ty == some .interfaceKind

/-- Classes and structs can be bases. -/
def isBaseKind (u : Universe) (ty : Handle) : Bool :=
  match u.kind? ty with
  | some .classKind | some .structKind => true
  | some .interfaceKind | none => false

/-- The type that a declaration introduces: its plain type, or the generic definition applied to
its own parameters. -/
def ownType? (u : Universe) (decl : DeclId) : Option Handle :=
  match decl.num with
  | 0 => none
  | n + 1 => u.ownTypes[n]?

/-- The type introduced by the declaration of a name. -/
def lookup (u : Universe) (name : String) : Option Handle :=
  (u.catalog.named? name).bind u.ownType?

/-! ## Generic types -/

/-- A type with arguments. -/
def isGeneric (u : Universe) (ty : Handle) : Bool :=
  match u.shape? ty with
  | some (.applied _ _) => true
  | _ => false

/-- The open definition that a type with arguments is built from. -/
def definition? (u : Universe) (ty : Handle) : Option Handle :=
  match u.shape? ty with
  | some (.applied decl _) => u.ownType? decl
  | _ => none

def arguments (u : Universe) (ty : Handle) : List Handle :=
  match u.shape? ty with
  | some (.applied _ args) => args
  | _ => []

/-! ## Parameters -/

def isParameter (u : Universe) (ty : Handle) : Bool :=
  match u.shape? ty with
  | some (.param _ _) => true
  | _ => false

/-- The declared parameter that a type is. -/
def parameter? (u : Universe) (owner : DeclId) (index : Nat) : Option Parameter :=
  (u.catalog.get? owner).bind fun d => d.parameters[index]?

/-- The bounds of a parameter. -/
def constraints (u : Universe) (ty : Handle) : List Handle :=
  match u.shape? ty with
  | some (.param owner index) => ((u.parameter? owner index).map (·.constraints)).getD []
  | _ => []

/-- Whether some parameter inside a type, at most `levels` arguments deep, has a property of its
owner. -/
def anyOwnerWithin (u : Universe) (p : DeclId → Bool) : (levels : Nat) → Handle → Bool
  | 0, _ => false
  | levels + 1, ty =>
    match u.shape? ty with
    | some (.param owner _) => p owner
    | some (.applied _ args) => args.any (u.anyOwnerWithin p levels)
    | _ => false

/-- Whether some parameter inside a type has a property of its owner. No type is nested more
deeply than there are types. -/
def anyOwner (u : Universe) (p : DeclId → Bool) (ty : Handle) : Bool :=
  u.anyOwnerWithin p u.typeCount ty

/-- Whether a parameter occurs in a type. -/
def isOpen (u : Universe) (ty : Handle) : Bool :=
  u.anyOwner (fun _ => true) ty

/-! ## Summary -/

/-- One line on the size of a universe. -/
def summary (u : Universe) : String :=
  s!"TypeUniverse \x7b definitions: {u.catalog.size}, types: {u.typeCount}, .. \x7d"

end Universe

/-- A universe and the journal of what has happened to it. -/
structure Chronicle where
  univ : Universe := {}
  journal : Journal := {}

/-- An empty universe, just opened. -/
def Chronicle.fresh : Chronicle :=
  { journal := Journal.note {} .opened }

/-- Work on a universe. -/
abbrev UniverseM := StateM Chronicle

namespace UniverseM

/-- Reads something off the universe. -/
def view {α : Type} (f : Universe → α) : UniverseM α := do
  return f (← get).univ

def modifyUniverse (f : Universe → Universe) : UniverseM Unit :=
  modify fun c => { c with univ := f c.univ }

/-- Writes an event down. -/
def note (e : Event) : UniverseM Unit :=
  modify fun c => { c with journal := c.journal.note e }

/-- Gives a declaration the next number. -/
def enroll (d : Declaration) : UniverseM DeclId :=
  modifyGet fun { univ := { catalog, table, ownTypes, closures }, journal } =>
    let (decl, catalog) := catalog.add d
    (decl, { univ := { catalog, table, ownTypes, closures }, journal })

/-- The handle of a shape, which becomes a type of the universe if it is not one yet. -/
def intern (shape : Shape) : UniverseM Handle :=
  modifyGet fun { univ := { catalog, table, ownTypes, closures }, journal } =>
    let (ty, table) := table.intern shape
    (ty, { univ := { catalog, table, ownTypes, closures }, journal })

end UniverseM

end Subtyping
