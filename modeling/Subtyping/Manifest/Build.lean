import Subtyping.Manifest.Basic
import Subtyping.TypeExpr.Resolve

/-!
# From a manifest to a universe

All names are declared first; then each declaration gets its base, its interfaces and the bounds
of its parameters, in the order of the file.
-/

namespace Subtyping.Manifest

open Attempt

/-- Declares one name. -/
def Decl.declare (d : Decl) : Attempt Handle :=
  within (.declaring d.name)
    (ofDeclaring (Declaring.declare (.bare d.kind d.name (d.params.map Param.name))))

/-- Resolves and attaches a base. -/
def Decl.attachBase (d : Decl) (ty : Handle) (base : String) : Attempt Unit :=
  within (.baseOf d.name) do
    let base ← TypeExpr.resolveText (some ty) base
    ofDeclaring (Declaring.setBase ty base)

/-- Resolves and attaches an interface. -/
def Decl.attachInterface (d : Decl) (ty : Handle) (interface : String) : Attempt Unit :=
  within (.interfacesOf d.name) do
    let interface ← TypeExpr.resolveText (some ty) interface
    ofDeclaring (Declaring.addInterface ty interface)

/-- Resolves and attaches a bound of a parameter. -/
def Decl.attachConstraint (d : Decl) (ty : Handle) (param : Param) (paramType : Handle)
    (bound : String) : Attempt Unit :=
  within (.constraintsOf param.name d.name) do
    let bound ← TypeExpr.resolveText (some ty) bound
    ofDeclaring (Declaring.addConstraint paramType bound)

/-- Attaches the bounds of the parameter at a position. -/
def Decl.attachConstraints (d : Decl) (ty : Handle) (param : Param) (index : Nat) :
    Attempt Unit := do
  unless param.constraints.isEmpty do
    let paramType ← ofDeclaring (Declaring.parameter ty index)
    param.constraints.forM (d.attachConstraint ty param paramType)

/-- Attaches all that a declaration refers to. -/
def Decl.attach (d : Decl) (ty : Handle) : Attempt Unit := do
  d.base.forM (d.attachBase ty)
  d.interfaces.forM (d.attachInterface ty)
  d.params.zipIdx.forM fun (param, index) => d.attachConstraints ty param index

/-- Declares and attaches everything in a manifest. -/
def build (m : Manifest) : Attempt Unit := do
  let declared ← m.decls.mapM Decl.declare
  (m.decls.zip declared).forM fun (d, ty) => d.attach ty
  UniverseM.note (.fileLoaded m.decls.length (← view (·.typeCount)))

end Subtyping.Manifest
