import Subtyping.Json.Value
import Subtyping.Manifest.Basic

/-!
# Manifests as JSON

A manifest is written with all of its fields, in the order in which they are declared; what is
absent is written as null.
-/

namespace Subtyping.Manifest

open Json

def Param.toValue : Param → Value
  | plain name => .string name
  | bounded name constraints =>
    .object [("name", .string name), ("constraints", .list (constraints.map .string))]

def Decl.toValue (d : Decl) : Value :=
  .object [
    ("name", .string d.name),
    ("kind", .string d.kind.keyword),
    ("params", .list (d.params.map Param.toValue)),
    ("extends", .ofOption .string d.base),
    ("implements", .list (d.interfaces.map .string))]

def Query.toValue (q : Query) : Value :=
  .object [
    ("source", .string q.source),
    ("target", .string q.target),
    ("expect", .ofOption .bool q.expect),
    ("substitution", .ofOption .string q.substitution)]

def Options.toValue (o : Options) : Value :=
  .object [("maxDepth", .ofOption .nat o.maxDepth)]

def toValue (m : Manifest) : Value :=
  .object [
    ("types", .list (m.decls.map Decl.toValue)),
    ("queries", .list (m.queries.map Query.toValue)),
    ("options", m.options.toValue)]

/-- The text of a universe file with the given contents. -/
def toText (m : Manifest) : String :=
  m.toValue.pretty

end Subtyping.Manifest
