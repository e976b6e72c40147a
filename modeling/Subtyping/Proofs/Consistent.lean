import Subtyping.Proofs.Signature

/-!
# Consistent universes

What holds of a universe at all times (`Universe.Consistent`): handles and shapes correspond, every
shape fits its declaration, supertypes and bounds are known and of the right kind, no declaration
inherits from itself, and the closures on record are those that the signature gives.

`u.Reads ty t` says that the handle `ty` stands for the tree `t`. What can be read off a handle is
a matter of its tree.
-/

namespace Subtyping

namespace Universe

variable {u v w : Universe} {ty ty' : Handle} {t t' : Ty}

/-- The shape fits the declaration that it is built from. -/
def Fits (u : Universe) : Shape → Prop
  | .plain decl => ∃ d, u.catalog.get? decl = some d ∧ d.arity = 0
  | .applied decl args =>
    (∃ d, u.catalog.get? decl = some d ∧ d.arity = args.length) ∧ args ≠ [] ∧
      ∀ a ∈ args, u.contains a
  | .param owner index => ∃ d, u.catalog.get? owner = some d ∧ index < d.arity

/-- One declaration lists a type headed by the other as its base or among its interfaces. -/
def Inherits (u : Universe) (child parent : DeclId) : Prop :=
  parent ∈ u.parents child

structure Consistent (u : Universe) : Prop where
  table : u.table.WellFormed
  fits : ∀ {ty shape}, u.shape? ty = some shape → u.Fits shape
  base : ∀ {decl d ty}, u.catalog.get? decl = some d → d.base = some ty → u.isBaseKind ty
  interfaces : ∀ {decl d}, u.catalog.get? decl = some d → ∀ ty ∈ d.interfaces, u.isInterface ty
  bounds : ∀ {decl d}, u.catalog.get? decl = some d →
    ∀ p ∈ d.parameters, ∀ ty ∈ p.constraints, u.contains ty
  acyclic : ∀ decl, ¬ Relation.TransGen u.Inherits decl decl
  closures : ∀ {ty closure}, u.closures[ty]? = some closure →
    u.contains ty ∧ (∀ i ∈ closure, u.contains i) ∧
      closure.map u.typeAt = u.signature.closureOf (u.typeAt ty)

/-- A handle stands for a tree. -/
def Reads (u : Universe) (ty : Handle) (t : Ty) : Prop :=
  u.contains ty ∧ u.typeAt ty = t

/-- Some handle stands for a tree. -/
def Has (u : Universe) (t : Ty) : Prop :=
  ∃ ty, u.Reads ty t

theorem reads_typeAt (h : u.contains ty) : u.Reads ty (u.typeAt ty) :=
  ⟨h, rfl⟩

theorem exists_shape?_of_contains (h : u.contains ty) : ∃ shape, u.shape? ty = some shape :=
  Option.isSome_iff_exists.1 h

theorem contains_of_shape? {shape : Shape} (h : u.shape? ty = some shape) : u.contains ty :=
  Option.isSome_iff_exists.2 ⟨shape, h⟩

theorem contains_of_kind? {k : Kind} (h : u.kind? ty = some k) : u.contains ty := by
  unfold kind? head? at h
  cases hs : u.shape? ty with
  | none => simp [hs] at h
  | some shape => exact contains_of_shape? hs

theorem contains_of_isInterface (h : u.isInterface ty) : u.contains ty :=
  contains_of_kind? (by simpa [isInterface] using h)

theorem contains_of_isBaseKind (h : u.isBaseKind ty) : u.contains ty := by
  unfold isBaseKind at h
  split at h
  · exact contains_of_kind? ‹_›
  · exact contains_of_kind? ‹_›
  · cases h
  · cases h

/-- A list of known handles is read one by one. -/
theorem forall₂_reads_map {l : List Handle} (h : ∀ i ∈ l, u.contains i) :
    List.Forall₂ u.Reads l (l.map u.typeAt) := by
  rw [List.forall₂_map_right_iff, List.forall₂_same]
  exact fun i hi => reads_typeAt (h i hi)

theorem forall₂_reads_iff {l : List Handle} {ts : List Ty} :
    List.Forall₂ u.Reads l ts ↔ (∀ i ∈ l, u.contains i) ∧ l.map u.typeAt = ts := by
  constructor
  · intro h
    induction h with
    | nil => simp
    | cons hab _ ih =>
      refine ⟨fun i hi => ?_, by rw [List.map_cons, hab.2, ih.2]⟩
      rcases List.mem_cons.1 hi with rfl | hi
      · exact hab.1
      · exact ih.1 i hi
  · rintro ⟨h, rfl⟩
    exact forall₂_reads_map h

namespace Consistent

/-! ## Reading handles -/

theorem reads_plain (hu : u.Consistent) {decl : DeclId} (h : u.shape? ty = some (.plain decl)) :
    u.Reads ty (.plain decl) :=
  ⟨contains_of_shape? h, hu.table.typeAt_plain h⟩

theorem reads_param (hu : u.Consistent) {owner : DeclId} {index : Nat}
    (h : u.shape? ty = some (.param owner index)) : u.Reads ty (.param owner index) :=
  ⟨contains_of_shape? h, hu.table.typeAt_param h⟩

theorem reads_args (hu : u.Consistent) {decl : DeclId} {args : List Handle}
    (h : u.shape? ty = some (.applied decl args)) :
    List.Forall₂ u.Reads args (args.map u.typeAt) :=
  forall₂_reads_map fun a ha => (hu.table.older h a ha).2

theorem reads_applied (hu : u.Consistent) {decl : DeclId} {args : List Handle} {ts : List Ty}
    (h : u.shape? ty = some (.applied decl args)) (hargs : List.Forall₂ u.Reads args ts) :
    u.Reads ty (.applied decl ts) := by
  refine ⟨contains_of_shape? h, (hu.table.typeAt_applied h).trans ?_⟩
  rw [← (forall₂_reads_iff.1 hargs).2]
  rfl

theorem shape?_of_reads_plain (hu : u.Consistent) {decl : DeclId} (h : u.Reads ty (.plain decl)) :
    u.shape? ty = some (.plain decl) := by
  obtain ⟨shape, hs⟩ := exists_shape?_of_contains h.1
  have he := h.2.symm.trans (hu.table.typeAt_eq hs)
  cases shape <;> simp_all

theorem shape?_of_reads_param (hu : u.Consistent) {owner : DeclId} {index : Nat}
    (h : u.Reads ty (.param owner index)) : u.shape? ty = some (.param owner index) := by
  obtain ⟨shape, hs⟩ := exists_shape?_of_contains h.1
  have he := h.2.symm.trans (hu.table.typeAt_eq hs)
  cases shape <;> simp_all

theorem shape?_of_reads_applied (hu : u.Consistent) {decl : DeclId} {ts : List Ty}
    (h : u.Reads ty (.applied decl ts)) :
    ∃ args, u.shape? ty = some (.applied decl args) ∧ List.Forall₂ u.Reads args ts := by
  obtain ⟨shape, hs⟩ := exists_shape?_of_contains h.1
  have he := h.2.symm.trans (hu.table.typeAt_eq hs)
  cases shape with
  | plain d => simp at he
  | param o i => simp at he
  | applied d args =>
    simp only [Ty.applied.injEq] at he
    obtain ⟨rfl, rfl⟩ := he
    exact ⟨args, hs, hu.reads_args hs⟩

/-- Handles that stand for the same tree are the same. -/
theorem reads_injective (hu : u.Consistent) (h : u.Reads ty t) (h' : u.Reads ty' t) : ty = ty' :=
  hu.table.typeAt_injective h.1 h'.1 (h.2.trans h'.2.symm)

/-- Lists of handles that stand for the same trees are the same. -/
theorem forall₂_reads_injective (hu : u.Consistent) {l l' : List Handle} {ts : List Ty}
    (h : List.Forall₂ u.Reads l ts) (h' : List.Forall₂ u.Reads l' ts) : l = l' := by
  induction h generalizing l' with
  | nil => exact (List.forall₂_nil_right_iff.1 h').symm
  | cons hty _ ih =>
    cases h' with
    | cons hty' h' => rw [hu.reads_injective hty hty', ih h']

theorem eq_iff_of_reads (hu : u.Consistent) (h : u.Reads ty t) (h' : u.Reads ty' t') :
    ty = ty' ↔ t = t' := by
  constructor
  · rintro rfl
    exact h.2.symm.trans h'.2
  · rintro rfl
    exact hu.reads_injective h h'

theorem mem_iff_of_reads (hu : u.Consistent) {l : List Handle} {ts : List Ty}
    (hl : List.Forall₂ u.Reads l ts) (h : u.Reads ty t) : ty ∈ l ↔ t ∈ ts := by
  induction hl with
  | nil => simp
  | cons hab _ ih => rw [List.mem_cons, List.mem_cons, ih, hu.eq_iff_of_reads h hab]

theorem contains_of_reads (hu : u.Consistent) {l : List Handle} {ts : List Ty}
    (hl : List.Forall₂ u.Reads l ts) (h : u.Reads ty t) : l.contains ty = ts.contains t := by
  rw [Bool.eq_iff_iff, List.contains_iff_mem, List.contains_iff_mem]
  exact hu.mem_iff_of_reads hl h

theorem head?_of_reads (hu : u.Consistent) (h : u.Reads ty t) : u.head? ty = t.head? := by
  cases t with
  | plain decl => simp [head?, hu.shape?_of_reads_plain h, Shape.head?, Ty.head?]
  | param owner index => simp [head?, hu.shape?_of_reads_param h, Shape.head?, Ty.head?]
  | applied decl ts =>
    obtain ⟨args, hs, -⟩ := hu.shape?_of_reads_applied h
    simp [head?, hs, Shape.head?, Ty.head?]

theorem kind?_of_reads (hu : u.Consistent) (h : u.Reads ty t) :
    u.kind? ty = u.signature.kindOf? t := by
  rw [kind?, hu.head?_of_reads h]
  rfl

theorem isInterface_of_reads (hu : u.Consistent) (h : u.Reads ty t) :
    u.isInterface ty = u.signature.isInterface t := by
  rw [isInterface, hu.kind?_of_reads h]
  rfl

theorem isBaseKind_of_reads (hu : u.Consistent) (h : u.Reads ty t) :
    u.isBaseKind ty = u.signature.isBaseKind t := by
  rw [isBaseKind, hu.kind?_of_reads h]
  rfl

theorem isGeneric_of_reads (hu : u.Consistent) (h : u.Reads ty t) :
    u.isGeneric ty = t.isGeneric := by
  cases t with
  | plain decl => simp [isGeneric, hu.shape?_of_reads_plain h, Ty.isGeneric]
  | param owner index => simp [isGeneric, hu.shape?_of_reads_param h, Ty.isGeneric]
  | applied decl ts =>
    obtain ⟨args, hs, -⟩ := hu.shape?_of_reads_applied h
    simp [isGeneric, hs, Ty.isGeneric]

theorem isParameter_of_reads (hu : u.Consistent) (h : u.Reads ty t) :
    u.isParameter ty = t.isParam := by
  cases t with
  | plain decl => simp [isParameter, hu.shape?_of_reads_plain h, Ty.isParam]
  | param owner index => simp [isParameter, hu.shape?_of_reads_param h, Ty.isParam]
  | applied decl ts =>
    obtain ⟨args, hs, -⟩ := hu.shape?_of_reads_applied h
    simp [isParameter, hs, Ty.isParam]

theorem arguments_of_reads (hu : u.Consistent) (h : u.Reads ty t) :
    List.Forall₂ u.Reads (u.arguments ty) t.args := by
  cases t with
  | plain decl => simp [arguments, hu.shape?_of_reads_plain h, Ty.args]
  | param owner index => simp [arguments, hu.shape?_of_reads_param h, Ty.args]
  | applied decl ts =>
    obtain ⟨args, hs, hargs⟩ := hu.shape?_of_reads_applied h
    simpa [arguments, hs, Ty.args] using hargs

theorem constraints_of_reads (hu : u.Consistent) {owner : DeclId} {index : Nat}
    (h : u.Reads ty (.param owner index)) :
    List.Forall₂ u.Reads (u.constraints ty) (u.signature.bounds owner index) := by
  simp only [constraints, hu.shape?_of_reads_param h, signature]
  refine forall₂_reads_map fun b hb => ?_
  cases hp : u.parameter? owner index with
  | none => simp [hp] at hb
  | some p =>
    obtain ⟨d, hd, hmem⟩ := Option.bind_eq_some_iff.1 hp
    exact hu.bounds hd p (List.mem_of_getElem? hmem) b (by simpa [hp] using hb)

theorem anyOwnerWithin_of_reads (hu : u.Consistent) (p : DeclId → Bool) {levels : Nat}
    (h : u.Reads ty t) (hl : ty.num ≤ levels) :
    u.anyOwnerWithin p levels ty = t.anyOwner p := by
  induction levels generalizing ty t with
  | zero =>
    obtain ⟨shape, hs⟩ := exists_shape?_of_contains h.1
    have := TypeTable.num_pos_of_shape? hs
    omega
  | succ n ih =>
    cases t with
    | plain decl => simp [anyOwnerWithin, hu.shape?_of_reads_plain h, Ty.anyOwner]
    | param owner index => simp [anyOwnerWithin, hu.shape?_of_reads_param h, Ty.anyOwner]
    | applied decl ts =>
      obtain ⟨args, hs, hargs⟩ := hu.shape?_of_reads_applied h
      simp only [anyOwnerWithin, hs, Ty.anyOwner, Ty.anyOwnerIn_eq_any]
      have hold : ∀ a ∈ args, a.num ≤ n := fun a ha => by
        have := (hu.table.older hs a ha).1
        omega
      clear h hs hl
      induction hargs with
      | nil => rfl
      | cons hab _ ih' =>
        rw [List.any_cons, List.any_cons, ih hab (hold _ List.mem_cons_self),
          ih' fun a ha => hold a (List.mem_cons_of_mem _ ha)]

theorem anyOwner_of_reads (hu : u.Consistent) (p : DeclId → Bool) (h : u.Reads ty t) :
    u.anyOwner p ty = t.anyOwner p := by
  obtain ⟨shape, hs⟩ := exists_shape?_of_contains h.1
  exact hu.anyOwnerWithin_of_reads p h (TypeTable.num_le_size_of_shape? hs)

theorem isOpen_of_reads (hu : u.Consistent) (h : u.Reads ty t) : u.isOpen ty = t.isOpen :=
  hu.anyOwner_of_reads _ h

/-- Where there is a tree, there are its parts. -/
theorem has_of_part (hu : u.Consistent) {s : Ty} (hs : s.Part t) (h : u.Has t) : u.Has s := by
  induction hs with
  | refl => exact h
  | @arg decl args a ha _ ih =>
    obtain ⟨ty, hr⟩ := h
    obtain ⟨tys, -, hargs⟩ := hu.shape?_of_reads_applied hr
    obtain ⟨i, hi⟩ := List.mem_iff_get.1 ha
    exact ih ⟨tys.get (i.cast hargs.length_eq.symm), hi ▸ hargs.get _ i.2⟩

theorem exists_catalog_of_reads (hu : u.Consistent) {decl : DeclId} {ts : List Ty}
    (h : u.Reads ty (.applied decl ts)) :
    ∃ d, u.catalog.get? decl = some d ∧ d.arity = ts.length ∧ ts ≠ [] := by
  obtain ⟨args, hs, hargs⟩ := hu.shape?_of_reads_applied h
  obtain ⟨⟨d, hd, hlen⟩, hne, -⟩ := hu.fits hs
  refine ⟨d, hd, hlen.trans hargs.length_eq, ?_⟩
  rintro rfl
  exact hne (List.forall₂_nil_right_iff.1 hargs)

end Consistent

end Universe

end Subtyping
