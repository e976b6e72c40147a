import Std.Data.HashMap
import Subtyping.Handle

/-!
# Declarations

A `Declaration` names a class, a struct or an interface, with its generic parameters, its base and
the interfaces it lists. A `Catalog` numbers declarations in the order of their registration and
finds them by the name they were registered under.
-/

namespace Subtyping

/-- The three kinds of declaration. -/
inductive Kind where
  | classKind
  | structKind
  | interfaceKind
deriving DecidableEq, Repr

/-- The keyword of a kind. -/
def Kind.keyword : Kind → String
  | classKind => "class"
  | structKind => "struct"
  | interfaceKind => "interface"

/-- The kind that a keyword names. -/
def Kind.ofKeyword? : String → Option Kind
  | "class" => some classKind
  | "struct" => some structKind
  | "interface" => some interfaceKind
  | _ => none

/-- A generic parameter and the types that bound it. -/
structure Parameter where
  name : String
  constraints : List Handle := []
deriving DecidableEq, Repr

/-- A class, struct or interface. -/
structure Declaration where
  kind : Kind
  name : String
  parameters : List Parameter := []
  base : Option Handle := none
  interfaces : List Handle := []
deriving DecidableEq, Repr

namespace Declaration

/-- A declaration with unbounded parameters and no supertypes. -/
def bare (kind : Kind) (name : String) (parameters : List String) : Declaration :=
  { kind, name, parameters := parameters.map fun p => { name := p } }

def arity (d : Declaration) : Nat :=
  d.parameters.length

def isGeneric (d : Declaration) : Bool :=
  !d.parameters.isEmpty

def isInterface (d : Declaration) : Bool :=
  d.kind == .interfaceKind

/-- Forgets supertypes and constraints. -/
def stripped (d : Declaration) : Declaration :=
  .bare d.kind d.name (d.parameters.map (·.name))

/-- Appends a listed interface, unless it is listed already. -/
def withInterface (d : Declaration) (interface : Handle) : Declaration :=
  if interface ∈ d.interfaces then d else { d with interfaces := d.interfaces ++ [interface] }

/-- Appends a bound to the parameter at a position, unless it is there already. -/
def withConstraint (d : Declaration) (index : Nat) (bound : Handle) : Declaration :=
  { d with
    parameters := d.parameters.modify index fun p =>
      if bound ∈ p.constraints then p else { p with constraints := p.constraints ++ [bound] } }

end Declaration

/-- Declarations by number, and the numbers of the names they were registered under. -/
structure Catalog where
  entries : Array Declaration := #[]
  names : Std.HashMap String DeclId := ∅

namespace Catalog

/-- The number of declarations. -/
def size (c : Catalog) : Nat :=
  c.entries.size

def isEmpty (c : Catalog) : Bool :=
  c.entries.isEmpty

/-- The declaration with a given number. -/
def get? (c : Catalog) (decl : DeclId) : Option Declaration :=
  match decl.num with
  | 0 => none
  | n + 1 => c.entries[n]?

/-- The number of the declaration that was registered under a name. -/
def named? (c : Catalog) (name : String) : Option DeclId :=
  c.names[name]?

/-- Gives a declaration the next number. -/
def add (c : Catalog) (d : Declaration) : DeclId × Catalog :=
  let decl : DeclId := ⟨c.entries.size + 1⟩
  (decl, { entries := c.entries.push d, names := c.names.insert d.name decl })

/-- Gives a declaration the next number, unless its name is taken. -/
def register (c : Catalog) (d : Declaration) : Option (DeclId × Catalog) :=
  if (c.named? d.name).isSome then none else some (c.add d)

/-- Changes a declaration in place. Names stay as they were registered. -/
def modify (c : Catalog) (decl : DeclId) (f : Declaration → Declaration) : Catalog :=
  match decl.num with
  | 0 => c
  | n + 1 => { c with entries := c.entries.modify n f }

end Catalog

end Subtyping
