import Subtyping.Proofs.Building

/-!
# Universes with any closures on record

Handles that come from outside may be unknown, and a closure may be asked for before its handle is
known; it is empty then, and stays on record. A universe is `Grounded` if it is valid apart from the
closures on record. Work that neither reads nor changes those is `UniverseM.Blind`, so what it does
to valid universes it does to grounded ones.

`u.Expands A v` says that `v` is `u` with more types, and that every closure put on record since is
either the one that the signature gives (`Universe.Records`) or an empty one of a handle in `A`.
Whatever is asked about any handle makes a grounded universe expand; only asking for the interfaces
of an unknown handle makes use of `A` (`UniverseM.interfaces_expands`).
-/

namespace Subtyping

namespace Universe

variable {u v w : Universe} {ty : Handle} {A : Handle → Prop}

/-- Valid, apart from the closures on record. -/
def Grounded (u : Universe) : Prop :=
  u.dropClosures.Valid

theorem Valid.grounded (hu : u.Valid) : u.Grounded :=
  ⟨⟨hu.consistent.table, hu.consistent.fits, hu.consistent.base, hu.consistent.interfaces,
    hu.consistent.bounds, hu.consistent.acyclic, fun h => by simp [dropClosures] at h⟩,
    hu.owned, hu.aligned⟩

/-- A closure of a known type that is the one the signature gives. -/
def Records (u : Universe) (ty : Handle) (closure : List Handle) : Prop :=
  u.contains ty ∧ List.Forall₂ u.Reads closure (u.signature.closureOf (u.typeAt ty))

/-- The second universe is the first one with more types, and with closures on record that are right,
or empty and of a handle in `A`. -/
structure Expands (A : Handle → Prop) (u v : Universe) : Prop where
  grows : u.dropClosures.Grows v.dropClosures
  closures : ∀ {ty closure}, v.closures[ty]? = some closure →
    u.closures[ty]? = some closure ∨ v.Records ty closure ∨ closure = [] ∧ A ty

theorem Grounded.grows (hu : u.Grounded) : u.dropClosures.Grows u.dropClosures :=
  .refl hu.consistent

/-- What is read off a universe does not depend on the closures on record. -/
theorem Grows.records (h : u.dropClosures.Grows v.dropClosures) {closure : List Handle}
    (hr : u.Records ty closure) : v.Records ty closure := by
  refine ⟨h.contains hr.1, ?_⟩
  rw [show v.signature = u.signature from h.signature,
    show v.typeAt ty = u.typeAt ty from h.typeAt hr.1]
  exact h.forall₂_reads hr.2

namespace Expands

theorem refl (hu : u.Grounded) : u.Expands A u :=
  ⟨hu.grows, Or.inl⟩

theorem trans (h : u.Expands A v) (h' : v.Expands A w) : u.Expands A w := by
  refine ⟨h.grows.trans h'.grows, fun hc => ?_⟩
  rcases h'.closures hc with hc | hc
  · exact (h.closures hc).imp_right (Or.imp_left h'.grows.records)
  · exact Or.inr hc

theorem grounded (h : u.Expands A v) (hu : u.Grounded) : v.Grounded :=
  h.grows.valid hu

theorem contains (h : u.Expands A v) (hty : u.contains ty) : v.contains ty :=
  h.grows.contains hty

theorem unknown (h : u.Expands A v) (hty : v.contains ty = false) : u.contains ty = false := by
  rw [← Bool.not_eq_true] at hty ⊢
  exact fun hc => hty (h.contains hc)

/-- A closure is put on record. -/
theorem insert (h : u.Expands A v) {closure : List Handle}
    (hc : v.Records ty closure ∨ closure = [] ∧ A ty) :
    u.Expands A (v.withClosures (v.closures.insert ty closure)) := by
  refine ⟨h.grows, fun {ty' closure'} h' => ?_⟩
  rw [withClosures, Std.HashMap.getElem?_insert] at h'
  split_ifs at h' with he
  · obtain rfl := Option.some.inj h'
    obtain rfl : ty = ty' := eq_of_beq he
    exact Or.inr hc
  · exact h.closures h'

end Expands

end Universe

namespace UniverseM

open Universe

variable {α β : Type} {u : Universe} {x : UniverseM α} {Q : α → Universe → Prop} {A : Handle → Prop}
  {j : Journal}

/-! ## Work that does not look at closures -/

/-- Work that neither reads nor changes the closures on record. -/
def Blind (x : UniverseM α) : Prop :=
  ∀ u j closures, x ⟨u.withClosures closures, j⟩ =
    ((x ⟨u, j⟩).1, ⟨(x ⟨u, j⟩).2.univ.withClosures closures, (x ⟨u, j⟩).2.journal⟩)

theorem Blind.structural : Structural Blind where
  pure _ _ _ _ := rfl
  bind {_ _ x f} hx hf u j closures := by
    show f _ _ = _
    rw [hx]
    exact hf _ _ _ closures
  read {_ _ f k} hf hk u j closures := by
    show k (f (u.withClosures closures)) _ = _
    rw [hf]
    exact hk _ _ _ closures
  note _ _ _ _ := rfl
  intern _ _ _ _ := rfl

theorem ownTypeFor_blind (decl : DeclId) (arity : Nat) : Blind (ownTypeFor decl arity) :=
  Structural.ite (Blind.structural.intern _)
    (Blind.structural.bind (Blind.structural.mapM (fun _ => Blind.structural.intern _) _) fun _ =>
      Blind.structural.intern _)

/-- What blind work does to a universe with no closures on record, it does to any. -/
theorem Blind.expands (hx : Blind x) (he : Ensures u.dropClosures x Q) (j : Journal) :
    u.Expands A (x ⟨u, j⟩).2.univ ∧ Q (x ⟨u, j⟩).1 (x ⟨u, j⟩).2.univ.dropClosures := by
  obtain ⟨hg, hq⟩ := he j
  have hdrop : x ⟨u.dropClosures, j⟩ = _ := hx u j ∅
  rw [hdrop] at hg hq
  refine ⟨⟨hg, fun hc => Or.inl ?_⟩, hq⟩
  have hsame : x ⟨u, j⟩ = _ := hx u j u.closures
  rw [hsame] at hc
  exact hc

/-! ## Unknown handles -/

theorem run_bind {f : α → UniverseM β} {c : Chronicle} : (x >>= f) c = f (x c).1 (x c).2 :=
  rfl

theorem run_view_bind {f : Universe → α} {k : α → UniverseM β} {c : Chronicle} :
    (view f >>= k) c = k (f c.univ) c :=
  rfl

theorem Nested.run_view_bind {f : Universe → α} {k : α → Nested β} {g : DepthGauge} {c : Chronicle} :
    ((liftM (view f) : Nested α) >>= k) g c = k (f c.univ) g c :=
  rfl

section Unknown

variable {ty : Handle} (h : u.contains ty = false)
include h

theorem shape?_of_unknown : u.shape? ty = none := by
  simpa [Universe.contains] using h

theorem run_instantiate_of_unknown (owner : DeclId) (args : List Handle) :
    instantiate ty owner args ⟨u, j⟩ = (ty, ⟨u, j⟩) := by
  have hfill : fill owner args Limits.instantiation.depth ty (.new Limits.instantiation.depth)
      ⟨u, j⟩ = ((ty, .new Limits.instantiation.depth), ⟨u, j⟩) := by
    unfold fill
    rw [Nested.run_view_bind, shape?_of_unknown h]
    rfl
  unfold instantiate
  rw [run_bind, StateT.run, hfill]
  rfl

theorem run_baseType_of_unknown : baseType ty ⟨u, j⟩ = (none, ⟨u, j⟩) := by
  unfold baseType
  rw [run_view_bind, id, shape?_of_unknown h]
  rfl

theorem run_declaredInterfaces_of_unknown : declaredInterfaces ty ⟨u, j⟩ = ([], ⟨u, j⟩) := by
  unfold declaredInterfaces
  rw [run_view_bind, id, shape?_of_unknown h]
  rfl

theorem run_baseChain_of_unknown : baseChain ty ⟨u, j⟩ = ([ty], ⟨u, j⟩) := by
  obtain ⟨n, hn⟩ : ∃ n, Limits.hierarchy.depth = n + 1 := ⟨_, rfl⟩
  rw [baseChain, hn, chainFrom, run_bind, run_baseType_of_unknown h]
  rfl

theorem run_computeInterfaces_of_unknown : computeInterfaces ty ⟨u, j⟩ = ([], ⟨u, j⟩) := by
  rw [computeInterfaces, run_bind, run_baseChain_of_unknown h, run_view_bind, List.reverse_singleton,
    List.foldlM_cons, run_bind, run_bind, run_declaredInterfaces_of_unknown h]
  rfl

end Unknown

/-! ## Any handle may be asked about -/

section Any

variable (hu : u.Grounded)
include hu

/-- Blind work on a handle that changes nothing if the handle is unknown. -/
theorem Blind.expands_or (hx : Blind x) {ty : Handle}
    (hknown : u.contains ty → Ensures u.dropClosures x Q)
    (hunknown : u.contains ty = false → ∃ a, x ⟨u, j⟩ = (a, ⟨u, j⟩)) :
    u.Expands A (x ⟨u, j⟩).2.univ := by
  cases hty : u.contains ty with
  | true => exact (hx.expands (hknown hty) j).1
  | false =>
    obtain ⟨a, ha⟩ := hunknown hty
    rw [ha]
    exact .refl hu

theorem instantiate_expands (ty : Handle) (owner : DeclId) {args : List Handle}
    (hargs : ∀ a ∈ args, u.contains a) :
    u.Expands A (instantiate ty owner args ⟨u, j⟩).2.univ :=
  (Blind.structural.instantiate ty owner args).expands_or hu
    (fun h => instantiate_ensures hu.consistent (reads_typeAt h) (forall₂_reads_map hargs))
    fun h => ⟨_, run_instantiate_of_unknown h owner args⟩

theorem baseType_expands (ty : Handle) : u.Expands A (baseType ty ⟨u, j⟩).2.univ :=
  (Blind.structural.baseType ty).expands_or hu
    (fun h => baseType_ensures hu.consistent (reads_typeAt h))
    fun h => ⟨_, run_baseType_of_unknown h⟩

theorem declaredInterfaces_expands (ty : Handle) :
    u.Expands A (declaredInterfaces ty ⟨u, j⟩).2.univ :=
  (Blind.structural.declaredInterfaces ty).expands_or hu
    (fun h => declaredInterfaces_ensures hu.consistent (reads_typeAt h))
    fun h => ⟨_, run_declaredInterfaces_of_unknown h⟩

theorem baseChain_expands (ty : Handle) : u.Expands A (baseChain ty ⟨u, j⟩).2.univ :=
  (Blind.structural.baseChain ty).expands_or hu
    (fun h => baseChain_ensures hu.consistent (reads_typeAt h))
    fun h => ⟨_, run_baseChain_of_unknown h⟩

/-- The closure of a known type is worked out to be the one that the signature gives, and that of an
unknown one to be empty. -/
theorem computeInterfaces_expands (ty : Handle) (hA : u.contains ty = false → A ty) :
    u.Expands A (computeInterfaces ty ⟨u, j⟩).2.univ ∧
      ((computeInterfaces ty ⟨u, j⟩).2.univ.Records ty (computeInterfaces ty ⟨u, j⟩).1 ∨
        (computeInterfaces ty ⟨u, j⟩).1 = [] ∧ A ty) := by
  cases hty : u.contains ty with
  | true =>
    obtain ⟨hg, hl⟩ := (Blind.structural.computeInterfaces ty).expands (A := A)
      (computeInterfaces_ensures hu.consistent (reads_typeAt hty)) j
    refine ⟨hg, Or.inl ⟨hg.contains hty, ?_⟩⟩
    rw [← hg.grows.signature, ← hg.grows.typeAt hty] at hl
    exact hl
  | false =>
    rw [run_computeInterfaces_of_unknown hty]
    exact ⟨.refl hu, Or.inr ⟨rfl, hA hty⟩⟩

theorem interfaces_expands (ty : Handle) (hA : u.contains ty = false → A ty) :
    u.Expands A (interfaces ty ⟨u, j⟩).2.univ := by
  rw [interfaces, run_view_bind]
  cases u.closures[ty]? with
  | some closure => exact .refl hu
  | none =>
    obtain ⟨hg, hl⟩ := computeInterfaces_expands hu (j := j) ty hA
    exact hg.insert hl

theorem isAssignable_expands (source target : Handle) (hA : u.contains source = false → A source) :
    u.Expands A (isAssignable source target ⟨u, j⟩).2.univ := by
  unfold isAssignable
  split_ifs
  · exact .refl hu
  · rw [run_view_bind]
    dsimp only
    rcases u.kind? target with _ | k
    · exact .refl hu
    · cases k with
      | interfaceKind => exact interfaces_expands hu source hA
      | classKind | structKind => exact baseChain_expands hu source

/-- A shape that a check has let through may be interned. -/
theorem require_intern_expands {f : Universe → Except Universe.Error Shape}
    (hf : ∀ shape, f u = .ok shape → u.Fits shape) :
    u.Expands A ((Declaring.require f >>= fun shape => intern shape).run ⟨u, j⟩).2.univ := by
  rw [Declaring.run_require_bind]
  cases hshape : f u with
  | error e => exact .refl hu
  | ok shape =>
    exact ((Blind.structural.intern shape).expands (intern_ensures hu.consistent (hf shape hshape)) j).1

theorem parameter_expands (definition : Handle) (index : Nat) :
    u.Expands A ((Declaring.parameter definition index).run ⟨u, j⟩).2.univ :=
  require_intern_expands hu fun _ h => fits_of_parameterShape h

theorem parameterNamed_expands (definition : Handle) (name : String) :
    u.Expands A ((Declaring.parameterNamed definition name).run ⟨u, j⟩).2.univ := by
  rw [Declaring.parameterNamed, Declaring.run_require_bind]
  split
  · exact parameter_expands hu definition _
  · exact .refl hu

theorem apply_expands (definition : Handle) (args : List Handle) :
    u.Expands A ((Declaring.apply definition args).run ⟨u, j⟩).2.univ :=
  require_intern_expands hu fun _ h => fits_of_applicationShape h

theorem makeGeneric_expands (definition : Handle) (args : List Handle) :
    u.Expands A (makeGeneric definition args ⟨u, j⟩).2.univ := by
  rw [makeGeneric, run_view_bind]
  split_ifs
  · exact apply_expands hu definition args
  · exact .refl hu

end Any

end UniverseM

end Subtyping
