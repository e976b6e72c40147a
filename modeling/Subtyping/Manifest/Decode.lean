import Subtyping.Json.Decode
import Subtyping.Manifest.Basic

/-!
# Manifests from JSON

A manifest is read from the text of a universe file. Fields that may be absent have defaults; a
key that is not known is an error, except in a parameter with bounds.
-/

namespace Subtyping.Manifest

open Json Json.Decoder

/-! ## Parameters -/

/-- A parameter with bounds; other keys than its two are passed over. -/
def Param.ofMembers : List (String × Node) → Except DecodeError Param :=
  let step (draft : Option String × Option (List String)) (key : String) (node : Node) := do
    match key with
    | "name" => return (← fill "name" draft.1 string node, draft.2)
    | "constraints" => return (draft.1, ← fill "constraints" draft.2 (list string) node)
    | _ => return draft
  fun nodes => do
    let (name, constraints) ← members step none (none, none) nodes
    return .bounded (← demand "name" name) (constraints.getD [])

/-- A parameter. It is read whole first, so that faults in it come before its form. -/
def Param.decoder : Decoder Param := fun node => do
  if let some fault := node.fault? then
    throw (.fault fault)
  match node with
  | .string name => return .plain name
  | .object nodes _ =>
    match Param.ofMembers nodes with
    | .ok param => return param
    | .error _ => throw (.noVariant "ParamDecl")
  | _ => throw (.noVariant "ParamDecl")

/-! ## Declarations -/

def kindDecoder : Decoder Kind :=
  choice Kind.ofKeyword? ["class", "struct", "interface"]

/-- The fields of a declaration that were read so far. -/
structure DeclDraft where
  name : Option String := none
  kind : Option Kind := none
  params : Option (List Param) := none
  base : Option (Option String) := none
  interfaces : Option (List String) := none

def DeclDraft.step (draft : DeclDraft) (key : String) (node : Node) :
    Except DecodeError DeclDraft := do
  match key with
  | "name" => return { draft with name := ← fill key draft.name string node }
  | "kind" => return { draft with kind := ← fill key draft.kind kindDecoder node }
  | "params" => return { draft with params := ← fill key draft.params (list Param.decoder) node }
  | "extends" => return { draft with base := ← fill key draft.base (optional string) node }
  | "implements" =>
    return { draft with interfaces := ← fill key draft.interfaces (list string) node }
  | _ => throw (.unknownField key ["name", "kind", "params", "extends", "implements"])

def DeclDraft.finish (draft : DeclDraft) : Except DecodeError Decl := do
  return {
    name := ← demand "name" draft.name
    kind := ← demand "kind" draft.kind
    params := draft.params.getD []
    base := draft.base.getD none
    interfaces := draft.interfaces.getD [] }

def Decl.fields : FieldsM Decl := do
  let expected := "struct TypeDecl with 5 elements"
  let name ← nextField expected 0 string
  let kind ← nextField expected 1 kindDecoder
  let params ← nextField? (list Param.decoder)
  let base ← nextField? (optional string)
  let interfaces ← nextField? (list string)
  return {
    name, kind
    params := params.getD []
    base := base.getD none
    interfaces := interfaces.getD [] }

def Decl.decoder : Decoder Decl :=
  record "struct TypeDecl" DeclDraft.step {} DeclDraft.finish Decl.fields

/-! ## Queries -/

/-- The fields of a query that were read so far. -/
structure QueryDraft where
  source : Option String := none
  target : Option String := none
  expect : Option (Option Bool) := none
  substitution : Option (Option String) := none

def QueryDraft.step (draft : QueryDraft) (key : String) (node : Node) :
    Except DecodeError QueryDraft := do
  match key with
  | "source" => return { draft with source := ← fill key draft.source string node }
  | "target" => return { draft with target := ← fill key draft.target string node }
  | "expect" => return { draft with expect := ← fill key draft.expect (optional bool) node }
  | "substitution" =>
    return { draft with substitution := ← fill key draft.substitution (optional string) node }
  | _ => throw (.unknownField key ["source", "target", "expect", "substitution"])

def QueryDraft.finish (draft : QueryDraft) : Except DecodeError Query := do
  return {
    source := ← demand "source" draft.source
    target := ← demand "target" draft.target
    expect := draft.expect.getD none
    substitution := draft.substitution.getD none }

def Query.fields : FieldsM Query := do
  let expected := "struct QuerySpec with 4 elements"
  let source ← nextField expected 0 string
  let target ← nextField expected 1 string
  let expect ← nextField? (optional bool)
  let substitution ← nextField? (optional string)
  return {
    source, target
    expect := expect.getD none
    substitution := substitution.getD none }

def Query.decoder : Decoder Query :=
  record "struct QuerySpec" QueryDraft.step {} QueryDraft.finish Query.fields

/-! ## Options -/

def Options.step (draft : Option (Option Nat)) (key : String) (node : Node) :
    Except DecodeError (Option (Option Nat)) :=
  match key with
  | "maxDepth" => fill key draft (optional word) node
  | _ => throw (.unknownField key ["maxDepth"])

def Options.decoder : Decoder Options :=
  record "struct FileOptions" Options.step none
    (fun draft => return { maxDepth := draft.getD none })
    (do return { maxDepth := (← nextField? (optional word)).getD none })

/-! ## Files -/

/-- The fields of a manifest that were read so far. -/
structure Draft where
  decls : Option (List Decl) := none
  queries : Option (List Query) := none
  options : Option Options := none

def Draft.step (draft : Draft) (key : String) (node : Node) : Except DecodeError Draft := do
  match key with
  | "types" => return { draft with decls := ← fill key draft.decls (list Decl.decoder) node }
  | "queries" => return { draft with queries := ← fill key draft.queries (list Query.decoder) node }
  | "options" => return { draft with options := ← fill key draft.options Options.decoder node }
  | _ => throw (.unknownField key ["types", "queries", "options"])

def Draft.finish (draft : Draft) : Except DecodeError Manifest :=
  return {
    decls := draft.decls.getD []
    queries := draft.queries.getD []
    options := draft.options.getD {} }

def fields : FieldsM Manifest := do
  let decls ← nextField? (list Decl.decoder)
  let queries ← nextField? (list Query.decoder)
  let options ← nextField? Options.decoder
  return {
    decls := decls.getD []
    queries := queries.getD []
    options := options.getD {} }

def decoder : Decoder Manifest :=
  record "struct UniverseFile" Draft.step {} Draft.finish fields

/-- Reads the text of a universe file. -/
def ofText (text : String) : Except DecodeError Manifest :=
  decode decoder text

end Subtyping.Manifest
