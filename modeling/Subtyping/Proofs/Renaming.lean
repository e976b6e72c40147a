import Subtyping.Proofs.Declaring

/-!
# Universes with other numbers

Which numbers declarations and types have is a matter of the order in which they were met. A
`Renaming` of a universe gives the declarations of another one that says the same about them. In the
course of work both universes come to hold further types, which are met in the same order and so have
the same numbers; `Renaming.Relates` says that they correspond, type by type.

Whatever is read off one universe is read off the other with other numbers, and is put into the same
words (`Renaming.Relates.display`). What one universe allows, the other does, and a shape that is
interned in both gets corresponding numbers (`Renaming.Relates.intern`).
-/

namespace Subtyping

/-! ## Other numbers -/

def Parameter.rename (f : Handle → Handle) (p : Parameter) : Parameter :=
  { p with constraints := p.constraints.map f }

def Declaration.rename (f : Handle → Handle) (d : Declaration) : Declaration :=
  { d with
    parameters := d.parameters.map (·.rename f)
    base := d.base.map f
    interfaces := d.interfaces.map f }

def Shape.rename (g : DeclId → DeclId) (f : Handle → Handle) : Shape → Shape
  | plain decl => plain (g decl)
  | applied decl args => applied (g decl) (args.map f)
  | param owner index => param (g owner) index

theorem Shape.rename_injective {g : DeclId → DeclId} {f : Handle → Handle} (hg : g.Injective)
    (hf : f.Injective) : (Shape.rename g f).Injective := by
  intro s t h
  cases s <;> cases t <;> simp_all [Shape.rename, hg.eq_iff, hf.list_map.eq_iff]

/-- The declarations that a shape refers to are there. -/
def Universe.Titles (u : Universe) : Shape → Prop
  | .plain decl | .applied decl _ => (u.catalog.get? decl).isSome
  | .param owner index => (u.parameter? owner index).isSome

theorem Universe.Fits.titles {u : Universe} {shape : Shape} (h : u.Fits shape) : u.Titles shape := by
  cases shape with
  | plain decl =>
    obtain ⟨d, hd, -⟩ := h
    exact Option.isSome_iff_exists.2 ⟨d, hd⟩
  | applied decl args =>
    obtain ⟨⟨d, hd, -⟩, -⟩ := h
    exact Option.isSome_iff_exists.2 ⟨d, hd⟩
  | param owner index =>
    obtain ⟨d, hd, hlt⟩ := h
    refine Option.isSome_iff_exists.2 ⟨d.parameters[index], ?_⟩
    rw [Universe.parameter?, hd]
    exact List.getElem?_eq_getElem hlt

/-- Other numbers for the declarations and types of a universe, under which another universe declares
the same. -/
structure Renaming (u u' : Universe) where
  decl : DeclId → DeclId
  type : Handle → Handle
  decl_injective : decl.Injective
  type_injective : type.Injective
  size_eq : u'.catalog.size = u.catalog.size
  get?_decl : ∀ d, u'.catalog.get? (decl d) = (u.catalog.get? d).map (·.rename type)
  named?_eq : ∀ name, u'.catalog.named? name = (u.catalog.named? name).map decl
  ownType?_decl : ∀ d, u'.ownType? (decl d) = (u.ownType? d).map type

namespace Renaming

variable {u u' v v' : Universe}

/-- A shape with other numbers. -/
abbrev shape (ρ : Renaming u u') : Shape → Shape :=
  Shape.rename ρ.decl ρ.type

theorem shape_injective (ρ : Renaming u u') : ρ.shape.Injective :=
  Shape.rename_injective ρ.decl_injective ρ.type_injective

/-- Two universes with the declarations of `u` and of `u'` hold the same types, up to numbers. Handles
that do not stand for a type are the same. -/
structure Relates (ρ : Renaming u u') (v v' : Universe) : Prop where
  catalog : v.catalog = u.catalog
  catalog' : v'.catalog = u'.catalog
  ownTypes : v.ownTypes = u.ownTypes
  ownTypes' : v'.ownTypes = u'.ownTypes
  size_eq : v'.table.size = v.table.size
  shape? : ∀ ty, v'.shape? (ρ.type ty) = (v.shape? ty).map ρ.shape
  index : ∀ shape, v'.table.index[ρ.shape shape]? = v.table.index[shape]?.map ρ.type
  unknown : ∀ {ty}, v.shape? ty = none → ρ.type ty = ty
  titled : ∀ {ty shape}, v.shape? ty = some shape → u.Titles shape
  closures : ∀ ty, v'.closures[ρ.type ty]? = v.closures[ty]?.map (·.map ρ.type)

namespace Relates

variable {ρ : Renaming u u'} (h : ρ.Relates v v') (ty : Handle)
include h

omit ty in
theorem titles {shape : Shape} (hfits : v.Fits shape) : u.Titles shape := by
  have htitles := hfits.titles
  cases shape with
  | plain decl | applied decl args => rwa [Universe.Titles, h.catalog] at htitles
  | param owner index => rwa [Universe.Titles, Universe.parameter?, h.catalog] at htitles

/-! ## What is read off a universe -/

theorem get? (decl : DeclId) :
    v'.catalog.get? (ρ.decl decl) = (v.catalog.get? decl).map (·.rename ρ.type) := by
  rw [h.catalog, h.catalog', ρ.get?_decl]

theorem ownType? (decl : DeclId) : v'.ownType? (ρ.decl decl) = (v.ownType? decl).map ρ.type := by
  have hown : v.ownType? decl = u.ownType? decl := by rw [Universe.ownType?, h.ownTypes]; rfl
  have hown' : v'.ownType? (ρ.decl decl) = u'.ownType? (ρ.decl decl) := by
    rw [Universe.ownType?, h.ownTypes']
    rfl
  rw [hown, hown', ρ.ownType?_decl]

theorem lookup (name : String) : v'.lookup name = (v.lookup name).map ρ.type := by
  rw [Universe.lookup, Universe.lookup, h.catalog', h.catalog, ρ.named?_eq]
  cases u.catalog.named? name with
  | none => rfl
  | some decl => exact h.ownType? decl

theorem contains : v'.contains (ρ.type ty) = v.contains ty := by
  rw [Universe.contains, Universe.contains, h.shape?, Option.isSome_map]

theorem head? : v'.head? (ρ.type ty) = (v.head? ty).map ρ.decl := by
  rw [Universe.head?, Universe.head?, h.shape?]
  cases v.shape? ty with
  | none => rfl
  | some shape => cases shape <;> rfl

theorem kind? : v'.kind? (ρ.type ty) = v.kind? ty := by
  rw [Universe.kind?, Universe.kind?, h.head?]
  cases v.head? ty with
  | none => rfl
  | some decl =>
    simp only [Option.map_some, Option.bind_some, h.get?, Option.map_map]
    rfl

theorem isInterface : v'.isInterface (ρ.type ty) = v.isInterface ty := by
  rw [Universe.isInterface, Universe.isInterface, h.kind?]

theorem isBaseKind : v'.isBaseKind (ρ.type ty) = v.isBaseKind ty := by
  rw [Universe.isBaseKind, Universe.isBaseKind, h.kind?]

theorem isGeneric : v'.isGeneric (ρ.type ty) = v.isGeneric ty := by
  rw [Universe.isGeneric, Universe.isGeneric, h.shape?]
  cases v.shape? ty with
  | none => rfl
  | some shape => cases shape <;> rfl

theorem definition? : v'.definition? (ρ.type ty) = (v.definition? ty).map ρ.type := by
  rw [Universe.definition?, Universe.definition?, h.shape?]
  cases v.shape? ty with
  | none => rfl
  | some shape =>
    cases shape with
    | applied decl args => exact h.ownType? decl
    | plain decl => rfl
    | param owner index => rfl

theorem arguments : v'.arguments (ρ.type ty) = (v.arguments ty).map ρ.type := by
  rw [Universe.arguments, Universe.arguments, h.shape?]
  cases v.shape? ty with
  | none => rfl
  | some shape => cases shape <;> rfl

theorem isParameter : v'.isParameter (ρ.type ty) = v.isParameter ty := by
  rw [Universe.isParameter, Universe.isParameter, h.shape?]
  cases v.shape? ty with
  | none => rfl
  | some shape => cases shape <;> rfl

theorem parameter? (owner : DeclId) (index : Nat) :
    v'.parameter? (ρ.decl owner) index = (v.parameter? owner index).map (·.rename ρ.type) := by
  rw [Universe.parameter?, Universe.parameter?, h.get?]
  cases v.catalog.get? owner with
  | none => rfl
  | some d => exact List.getElem?_map

theorem constraints : v'.constraints (ρ.type ty) = (v.constraints ty).map ρ.type := by
  rw [Universe.constraints, Universe.constraints, h.shape?]
  cases v.shape? ty with
  | none => rfl
  | some shape =>
    cases shape with
    | param owner index =>
      simp only [Option.map_some, Shape.rename, h.parameter?]
      cases v.parameter? owner index <;> rfl
    | plain decl => rfl
    | applied decl args => rfl

theorem isOpen : v'.isOpen (ρ.type ty) = v.isOpen ty := by
  have hwithin : ∀ levels ty, v'.anyOwnerWithin (fun _ => true) levels (ρ.type ty) =
      v.anyOwnerWithin (fun _ => true) levels ty := by
    intro levels
    induction levels with
    | zero => exact fun _ => rfl
    | succ levels ih =>
      intro ty
      rw [Universe.anyOwnerWithin, Universe.anyOwnerWithin, h.shape?]
      cases v.shape? ty with
      | none => rfl
      | some shape =>
        cases shape with
        | applied decl args =>
          simp only [Option.map_some, Shape.rename, List.any_map]
          exact congrArg (List.any args) (funext ih)
        | plain decl => rfl
        | param owner index => rfl
  rw [Universe.isOpen, Universe.isOpen, Universe.anyOwner, Universe.anyOwner, Universe.typeCount,
    Universe.typeCount, h.size_eq, hwithin]

/-! ## Words -/

theorem headName {decl : DeclId} (hdecl : (u.catalog.get? decl).isSome) (ty ty' : Handle) :
    v'.headName ty' (ρ.decl decl) = v.headName ty decl := by
  obtain ⟨d, hd⟩ := Option.isSome_iff_exists.1 hdecl
  rw [Universe.headName, Universe.headName, h.get?, h.catalog, hd]
  rfl

theorem displayWithin (levels : Nat) (outermost : Bool) :
    v'.displayWithin levels outermost (ρ.type ty) = v.displayWithin levels outermost ty := by
  induction levels generalizing ty outermost with
  | zero => rfl
  | succ levels ih =>
    rw [Universe.displayWithin, Universe.displayWithin, h.shape?]
    cases hs : v.shape? ty with
    | none => exact congrArg Handle.text (h.unknown hs)
    | some shape =>
      have htitled := h.titled hs
      cases shape with
      | plain decl => exact h.headName htitled _ _
      | param owner index =>
        have hp := h.parameter? owner index
        have hknown : (v.parameter? owner index).isSome := by
          rw [Universe.parameter?, h.catalog]
          exact htitled
        obtain ⟨p, hsome⟩ := Option.isSome_iff_exists.1 hknown
        simp only [Option.map_some, Shape.rename, hp, hsome]
        rfl
      | applied decl args =>
        have hown : (v'.ownType? (ρ.decl decl) == some (ρ.type ty)) = (v.ownType? decl == some ty) := by
          rw [h.ownType?, Bool.eq_iff_iff, beq_iff_eq, beq_iff_eq]
          cases v.ownType? decl with
          | none => simp
          | some own => simp [ρ.type_injective.eq_iff]
        have hmap : (args.map ρ.type).map (v'.displayWithin levels false) =
            args.map (v.displayWithin levels false) := by
          rw [List.map_map]
          exact List.map_congr_left fun arg _ => ih arg false
        simp only [Option.map_some, Shape.rename, hown, hmap, List.length_map,
          h.headName htitled ty (ρ.type ty)]

/-- A type is put into the same words. -/
theorem display : v'.display (ρ.type ty) = v.display ty :=
  h.displayWithin ty _ _

/-! ## What is allowed -/

theorem declarationOf : v'.declarationOf (ρ.type ty) =
    (v.declarationOf ty).map (Prod.map ρ.decl (·.rename ρ.type)) := by
  rw [Universe.declarationOf, Universe.declarationOf, h.shape?]
  cases hs : v.shape? ty with
  | none => exact congrArg _ (congrArg Universe.Error.unknownType (h.unknown hs))
  | some shape =>
    have htitled := h.titled hs
    cases shape with
    | param owner index => exact congrArg _ (congrArg Universe.Error.notADeclaration (h.display ty))
    | plain decl | applied decl args =>
      obtain ⟨d, hd⟩ := Option.isSome_iff_exists.1 htitled
      rw [← h.catalog] at hd
      simp only [Option.map_some, Shape.rename, Shape.head?, h.get?, hd]
      rfl

theorem parameterShape (index : Nat) :
    v'.parameterShape (ρ.type ty) index = (v.parameterShape ty index).map ρ.shape := by
  rw [Universe.parameterShape, Universe.parameterShape, h.declarationOf]
  cases v.declarationOf ty with
  | error e => rfl
  | ok p =>
    have hgeneric : (p.2.rename ρ.type).isGeneric = p.2.isGeneric := by
      simp [Declaration.isGeneric, Declaration.rename]
    have harity : (p.2.rename ρ.type).arity = p.2.arity := List.length_map _
    simp only [Except.map, bind, Except.bind, Prod.map, hgeneric, harity]
    split_ifs <;> rfl

theorem parameterIndex (name : String) :
    v'.parameterIndex (ρ.type ty) name = v.parameterIndex ty name := by
  rw [Universe.parameterIndex, Universe.parameterIndex, h.declarationOf]
  cases v.declarationOf ty with
  | error e => rfl
  | ok p =>
    have hfind : (p.2.rename ρ.type).parameters.findIdx? (·.name == name) =
        p.2.parameters.findIdx? (·.name == name) := List.findIdx?_map
    simp only [Except.map, bind, Except.bind, Prod.map, hfind]
    rfl

omit ty in
theorem find?_unknown (args : List Handle) :
    (args.map ρ.type).find? (!v'.contains ·) = args.find? (!v.contains ·) := by
  have hcomp : (!v'.contains ·) ∘ ρ.type = (!v.contains ·) :=
    funext fun arg => congrArg not (h.contains arg)
  rw [List.find?_map, hcomp]
  cases hfind : args.find? (!v.contains ·) with
  | none => rfl
  | some arg =>
    have hunknown := List.find?_some hfind
    rw [Bool.not_eq_true', Universe.contains, Option.isSome_eq_false_iff, Option.isNone_iff_eq_none]
      at hunknown
    exact congrArg some (h.unknown hunknown)

theorem applicationShape (args : List Handle) :
    v'.applicationShape (ρ.type ty) (args.map ρ.type) =
      (v.applicationShape ty args).map ρ.shape := by
  rw [Universe.applicationShape, Universe.applicationShape, h.declarationOf]
  cases v.declarationOf ty with
  | error e => rfl
  | ok p =>
    have hgeneric : (p.2.rename ρ.type).isGeneric = p.2.isGeneric := by
      simp [Declaration.isGeneric, Declaration.rename]
    have harity : (p.2.rename ρ.type).arity = p.2.arity := List.length_map _
    simp only [Except.map, bind, Except.bind, Prod.map, hgeneric, harity, List.length_map,
      h.find?_unknown]
    cases args.find? (!v.contains ·) <;> split_ifs <;> rfl

/-! ## Interning -/

omit ty in
/-- A shape that is new gets the same number in both universes. -/
theorem intern {shape : Shape} (hshape : u.Titles shape) :
    (v'.table.intern (ρ.shape shape)).1 = ρ.type (v.table.intern shape).1 ∧
      ρ.Relates { v with table := (v.table.intern shape).2 }
        { v' with table := (v'.table.intern (ρ.shape shape)).2 } := by
  have hindex := h.index shape
  unfold TypeTable.intern
  cases hfound : v.table.index[shape]? with
  | some ty =>
    rw [hfound, Option.map_some] at hindex
    rw [hindex]
    exact ⟨rfl, h⟩
  | none =>
    rw [hfound, Option.map_none] at hindex
    rw [hindex]
    have hsize : v'.table.shapes.size = v.table.shapes.size := h.size_eq
    have hnew : v.shape? ⟨v.table.shapes.size + 1⟩ = none := by
      simp [Universe.shape?, TypeTable.shape?]
    have hfixed := h.unknown hnew
    dsimp only
    rw [hsize]
    refine ⟨hfixed.symm, h.catalog, h.catalog', h.ownTypes, h.ownTypes', ?_, ?_, ?_, ?_, ?_, h.closures⟩
    · exact (Array.size_push _).trans ((congrArg (· + 1) hsize).trans (Array.size_push _).symm)
    · intro ty
      show TypeTable.shape? _ _ = (TypeTable.shape? _ _).map _
      rw [TypeTable.shape?_push, TypeTable.shape?_push, hsize]
      by_cases hty : ty = ⟨v.table.shapes.size + 1⟩
      · rw [hty, hfixed, if_pos rfl, if_pos rfl, Option.map_some]
      · rw [if_neg hty, if_neg fun he => hty (ρ.type_injective (he.trans hfixed.symm))]
        exact h.shape? ty
    · intro s
      rw [Std.HashMap.getElem?_insert, Std.HashMap.getElem?_insert]
      by_cases hs : shape = s
      · rw [hs, if_pos (beq_self_eq_true _), if_pos (beq_self_eq_true _), Option.map_some, hfixed]
      · rw [if_neg fun he => hs (ρ.shape_injective (eq_of_beq he)), if_neg (by simpa using hs)]
        exact h.index s
    · intro ty hty
      refine h.unknown ?_
      rw [Universe.shape?, TypeTable.shape?_push] at hty
      split_ifs at hty
      exact hty
    · intro ty s hs
      rw [Universe.shape?, TypeTable.shape?_push] at hs
      split_ifs at hs
      · rwa [← Option.some.inj hs]
      · exact h.titled hs

end Relates

end Renaming

end Subtyping
