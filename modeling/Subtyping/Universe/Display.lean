import Subtyping.Universe.Basic

/-!
# Types as text

A type is written the way it is declared: `List<Dog>`, `Map<String, List<Int32>>`, a parameter by
its name. The outermost type may be an open definition, written `Range<>` or `Map<,>`; deeper down
an open definition names its parameters.
-/

namespace Subtyping.Universe

/-- How many levels of arguments are written out, the outermost type included. -/
def displayLevels : Nat := 33

/-- The name of the declaration that heads a type. -/
def headName (u : Universe) (ty : Handle) (decl : DeclId) : String :=
  ((u.catalog.get? decl).map (·.name)).getD ty.text

/-- The text of a type, cut off below the given number of levels. -/
def displayWithin (u : Universe) : (levels : Nat) → (outermost : Bool) → Handle → String
  | 0, _, _ => "…"
  | levels + 1, outermost, ty =>
    match u.shape? ty with
    | some (.plain decl) => u.headName ty decl
    | some (.param owner index) => ((u.parameter? owner index).map (·.name)).getD ty.text
    | some (.applied decl args) =>
      let inside :=
        if outermost && u.ownType? decl == some ty then
          String.ofList (List.replicate (args.length - 1) ',')
        else
          ", ".intercalate (args.map (u.displayWithin levels false))
      u.headName ty decl ++ "<" ++ inside ++ ">"
    | none => ty.text

/-- The text of a type. -/
def display (u : Universe) (ty : Handle) : String :=
  u.displayWithin displayLevels true ty

end Subtyping.Universe
