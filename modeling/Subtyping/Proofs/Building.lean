import Subtyping.Proofs.Declaring
import Subtyping.Proofs.Journal

/-!
# Building universes

A universe is `Built` if it comes from the empty one by operations on known handles, in any order
and whether they are refused or not. Every such universe is valid (`Universe.Built.valid`).
Operations that change no declaration make the universe grow (`Operation.grows_run`).
-/

namespace Subtyping

open Relation UniverseM

/-! ## Adding types -/

namespace UniverseM

variable {u : Universe}

/-- Work that a check may refuse, in which case nothing changes. -/
theorem Ensures.require_or {α β : Type} {f : Universe → Except Universe.Error α}
    {k : α → Declaring β} {R : Except Universe.Error β → Universe → Prop} (hu : u.Consistent)
    (hok : ∀ a, f u = .ok a → Ensures u (k a).run R) (herr : ∀ e, R (.error e) u) :
    Ensures u (Declaring.require f >>= k).run R := by
  intro j
  rw [Declaring.run_require_bind]
  cases h : f u with
  | error e => exact ⟨.refl hu, herr e⟩
  | ok a => exact hok a h j

/-- A handle is given, if any, that is known. -/
def GivesKnown (r : Except Universe.Error Handle) (v : Universe) : Prop :=
  ∀ ty, r = .ok ty → v.contains ty

theorem run_intern_ensures (hu : u.Consistent) {shape : Shape} (hf : u.Fits shape) :
    Ensures u (intern shape : Declaring Handle).run GivesKnown :=
  (intern_ensures hu hf).map fun ty v hv hs ty' h => by
    cases h
    exact Universe.contains_of_shape? hs

theorem parameter_ensures (hu : u.Consistent) (definition : Handle) (index : Nat) :
    Ensures u (Declaring.parameter definition index).run GivesKnown :=
  Ensures.require_or hu (fun _ h => run_intern_ensures hu (Universe.fits_of_parameterShape h))
    fun _ _ h => by cases h

theorem parameterNamed_ensures (hu : u.Consistent) (definition : Handle) (name : String) :
    Ensures u (Declaring.parameterNamed definition name).run GivesKnown :=
  Ensures.require_or hu (fun index _ => parameter_ensures hu definition index)
    fun _ _ h => by cases h

theorem apply_ensures (hu : u.Consistent) (definition : Handle) (args : List Handle) :
    Ensures u (Declaring.apply definition args).run GivesKnown :=
  Ensures.require_or hu (fun _ h => run_intern_ensures hu (Universe.fits_of_applicationShape h))
    fun _ _ h => by cases h

end UniverseM

/-- What can be done with a universe: declarations are made and changed, types are added, and
supertypes are asked for. -/
inductive Operation where
  | declare (d : Declaration)
  | setBase (declared base : Handle)
  | addInterface (declared interface : Handle)
  | addConstraint (param bound : Handle)
  | parameter (definition : Handle) (index : Nat)
  | parameterNamed (definition : Handle) (name : String)
  | apply (definition : Handle) (args : List Handle)
  | instantiate (ty : Handle) (owner : DeclId) (args : List Handle)
  | baseType (ty : Handle)
  | baseChain (ty : Handle)
  | declaredInterfaces (ty : Handle)
  | interfaces (ty : Handle)
  | isAssignable (source target : Handle)

namespace Operation

/-- The handles that an operation is given. -/
def handles : Operation → List Handle
  | declare _ => []
  | setBase declared base => [declared, base]
  | addInterface declared interface => [declared, interface]
  | addConstraint param bound => [param, bound]
  | parameter definition _ => [definition]
  | parameterNamed definition _ => [definition]
  | apply definition args => definition :: args
  | instantiate ty _ args => ty :: args
  | baseType ty => [ty]
  | baseChain ty => [ty]
  | declaredInterfaces ty => [ty]
  | interfaces ty => [ty]
  | isAssignable source target => [source, target]

/-- What an operation does to the universe; its answer is left out. -/
def run : Operation → UniverseM Unit
  | declare d => discard (Declaring.declare d).run
  | setBase declared base => discard (Declaring.setBase declared base).run
  | addInterface declared interface => discard (Declaring.addInterface declared interface).run
  | addConstraint param bound => discard (Declaring.addConstraint param bound).run
  | parameter definition index => discard (Declaring.parameter definition index).run
  | parameterNamed definition name => discard (Declaring.parameterNamed definition name).run
  | apply definition args => discard (Declaring.apply definition args).run
  | instantiate ty owner args => discard (UniverseM.instantiate ty owner args)
  | baseType ty => discard (UniverseM.baseType ty)
  | baseChain ty => discard (UniverseM.baseChain ty)
  | declaredInterfaces ty => discard (UniverseM.declaredInterfaces ty)
  | interfaces ty => discard (UniverseM.interfaces ty)
  | isAssignable source target => discard (UniverseM.isAssignable source target)

/-- Some operations change what declarations say; the others only add types. -/
def declares : Operation → Bool
  | declare _ => true
  | setBase _ _ => true
  | addInterface _ _ => true
  | addConstraint _ _ => true
  | _ => false

variable {u : Universe} {op : Operation}

theorem grows_run_of_ensures {α : Type} {x : UniverseM α} {Q : α → Universe → Prop}
    (hx : Ensures u x Q) (j : Journal) : u.Grows ((discard x : UniverseM Unit) ⟨u, j⟩).2.univ :=
  (hx j).1

/-- An operation that changes no declaration makes the universe grow. -/
theorem grows_run (hu : u.Consistent) (hop : op.declares = false)
    (h : ∀ ty ∈ op.handles, u.contains ty) (j : Journal) : u.Grows (op.run ⟨u, j⟩).2.univ := by
  have hreads : ∀ ty ∈ op.handles, u.Reads ty (u.typeAt ty) :=
    fun ty hty => Universe.reads_typeAt (h ty hty)
  cases op with
  | declare d => cases hop
  | setBase declared base => cases hop
  | addInterface declared interface => cases hop
  | addConstraint param bound => cases hop
  | parameter definition index =>
    exact grows_run_of_ensures (parameter_ensures hu definition index) j
  | parameterNamed definition name =>
    exact grows_run_of_ensures (parameterNamed_ensures hu definition name) j
  | apply definition args => exact grows_run_of_ensures (apply_ensures hu definition args) j
  | instantiate ty owner args =>
    have hargs : ∀ a ∈ args, u.contains a := fun a ha => h a (List.mem_cons_of_mem _ ha)
    exact grows_run_of_ensures (instantiate_ensures hu (hreads ty List.mem_cons_self)
      (Universe.forall₂_reads_map hargs)) j
  | baseType ty => exact grows_run_of_ensures (baseType_ensures hu (hreads ty List.mem_cons_self)) j
  | baseChain ty =>
    exact grows_run_of_ensures (baseChain_ensures hu (hreads ty List.mem_cons_self)) j
  | declaredInterfaces ty =>
    exact grows_run_of_ensures (declaredInterfaces_ensures hu (hreads ty List.mem_cons_self)) j
  | interfaces ty =>
    exact grows_run_of_ensures (interfaces_ensures hu (hreads ty List.mem_cons_self)) j
  | isAssignable source target =>
    exact grows_run_of_ensures (isAssignable_ensures hu (hreads source List.mem_cons_self)
      (hreads target (List.mem_cons_of_mem _ List.mem_cons_self))) j

/-- It is simple work. -/
theorem simple_run (hop : op.declares = false) : Simple op.run := by
  cases op with
  | declare d => cases hop
  | setBase declared base => cases hop
  | addInterface declared interface => cases hop
  | addConstraint param bound => cases hop
  | parameter definition index => exact (parameter_simple definition index).discard
  | parameterNamed definition name => exact (parameterNamed_simple definition name).discard
  | apply definition args => exact (apply_simple definition args).discard
  | instantiate ty owner args => exact (instantiate_simple ty owner args).discard
  | baseType ty => exact (baseType_simple ty).discard
  | baseChain ty => exact (baseChain_simple ty).discard
  | declaredInterfaces ty => exact (declaredInterfaces_simple ty).discard
  | interfaces ty => exact (interfaces_simple ty).discard
  | isAssignable source target => exact (isAssignable_simple source target).discard

theorem valid_setBase (hu : u.Valid) (declared base : Handle) (j : Journal) :
    ((Declaring.setBase declared base).run ⟨u, j⟩).2.univ.Valid ∧
      u.table.Extends ((Declaring.setBase declared base).run ⟨u, j⟩).2.univ.table := by
  rw [Declaring.setBase, Declaring.run_require_bind]
  cases hcheck : u.checkBase declared base with
  | error e => exact ⟨hu, .refl _⟩
  | ok decl =>
    obtain ⟨d, -, -, hkind, -, hany⟩ := Universe.checkBase_eq_ok hcheck
    exact ⟨hu.withBase hkind hany, .refl _⟩

theorem valid_addInterface (hu : u.Valid) (declared interface : Handle) (j : Journal) :
    ((Declaring.addInterface declared interface).run ⟨u, j⟩).2.univ.Valid ∧
      u.table.Extends ((Declaring.addInterface declared interface).run ⟨u, j⟩).2.univ.table := by
  rw [Declaring.addInterface, Declaring.run_require_bind]
  cases hcheck : u.checkInterface declared interface with
  | error e => exact ⟨hu, .refl _⟩
  | ok p =>
    obtain ⟨-, hkind, -, hany⟩ := Universe.checkInterface_eq_ok hcheck
    dsimp only
    split_ifs
    · exact ⟨hu, .refl _⟩
    · exact ⟨hu.withInterface hkind hany, .refl _⟩

theorem valid_addConstraint (hu : u.Valid) (param bound : Handle) (j : Journal) :
    ((Declaring.addConstraint param bound).run ⟨u, j⟩).2.univ.Valid ∧
      u.table.Extends ((Declaring.addConstraint param bound).run ⟨u, j⟩).2.univ.table := by
  rw [Declaring.addConstraint, Declaring.run_require_bind]
  cases hcheck : u.checkConstraint param bound with
  | error e => exact ⟨hu, .refl _⟩
  | ok p => exact ⟨hu.withConstraint p.2 (Universe.checkConstraint_eq_ok hcheck).2.1, .refl _⟩

/-- Every operation keeps a universe valid, and all its types. -/
theorem valid_run (hu : u.Valid) (h : ∀ ty ∈ op.handles, u.contains ty) (j : Journal) :
    (op.run ⟨u, j⟩).2.univ.Valid ∧ u.table.Extends (op.run ⟨u, j⟩).2.univ.table := by
  cases hop : op.declares with
  | false =>
    have hg := grows_run hu.consistent hop h j
    exact ⟨hg.valid hu, hg.table⟩
  | true =>
    cases op with
    | declare d =>
      obtain ⟨hv, hext, -⟩ := hu.declare d j
      exact ⟨hv, hext⟩
    | setBase declared base => exact valid_setBase hu declared base j
    | addInterface declared interface => exact valid_addInterface hu declared interface j
    | addConstraint param bound => exact valid_addConstraint hu param bound j
    | _ => cases hop

end Operation

/-- A universe that comes from the empty one by operations on known handles. -/
inductive Universe.Built : Universe → Prop where
  | empty : Built {}
  | step {u : Universe} {op : Operation} (hu : Built u) (h : ∀ ty ∈ op.handles, u.contains ty)
      (j : Journal) : Built (op.run ⟨u, j⟩).2.univ

namespace Universe

theorem valid_empty : Valid {} := by
  have hget : ∀ decl, ({} : Universe).catalog.get? decl = none := Catalog.get?_empty
  have hshape : ∀ ty, ({} : Universe).shape? ty = none := TypeTable.shape?_empty
  refine ⟨⟨.empty, fun h => ?_, fun h => ?_, fun h => ?_, fun h => ?_, fun x h => ?_,
    fun h => ?_⟩, fun h => ?_, rfl⟩
  · simp [hshape] at h
  · simp [hget] at h
  · simp [hget] at h
  · simp [hget] at h
  · obtain ⟨y, hxy, -⟩ := TransGen.head'_iff.1 h
    simp [inherits_iff, hget] at hxy
  · simp at h
  · simp [hget] at h

theorem Built.valid {u : Universe} (h : u.Built) : u.Valid := by
  induction h with
  | empty => exact valid_empty
  | step _ h j ih => exact (Operation.valid_run ih h j).1

end Universe

/-! ## Operations one after the other -/

namespace Operation

/-- Runs operations in order. -/
def runAll (ops : List Operation) (c : Chronicle) : Chronicle :=
  ops.foldl (fun c op => (op.run c).2) c

/-- All handles are known by the time that they are used. -/
def allKnown : List Operation → Chronicle → Bool
  | [], _ => true
  | op :: ops, c => op.handles.all c.univ.contains && allKnown ops (op.run c).2

theorem built_runAll {ops : List Operation} {c : Chronicle} (hc : c.univ.Built)
    (h : allKnown ops c) : (runAll ops c).univ.Built := by
  induction ops generalizing c with
  | nil => exact hc
  | cons op ops ih =>
    rw [allKnown, Bool.and_eq_true, List.all_eq_true] at h
    exact ih (.step hc h.1 c.journal) h.2

end Operation

/-- The universe of an interface `D<T>` that bounds its own parameter by `D<T>`, and a class `X` that
implements `D<D<X>>`. The types are `T`, `D<T>`, `X`, `D<X>` and `D<D<X>>`, in this order. -/
def Chronicle.selfBounded : Chronicle :=
  Operation.runAll
    [.declare (.bare .interfaceKind "D" ["T"]), .addConstraint ⟨1⟩ ⟨2⟩,
      .declare (.bare .classKind "X" []), .apply ⟨2⟩ [⟨3⟩], .apply ⟨2⟩ [⟨4⟩],
      .addInterface ⟨3⟩ ⟨5⟩] .fresh

theorem Chronicle.built_selfBounded : selfBounded.univ.Built :=
  Operation.built_runAll .empty (by cbv)

end Subtyping
