import Subtyping.Proofs.WellDeclared

/-!
# Scopes

A tree is `Ty.Formed` if it is built as the declarations say: each application has as many arguments as
its declaration has parameters, and the parameters that occur belong to certain owners. Signatures in
which declarations mention only their own parameters (`Signature.Scoped`) are those of universes in
use (`Universe.Built.scoped`).

In such a signature the supertypes of a type without bare parameters among its arguments have none
either (`Ty.Concrete`, `Signature.Scoped.concrete_of_mem_closureOf`): each parameter of a declaration is
replaced by an argument.
-/

namespace Subtyping

/-- A tree built as the declarations say, with parameters of certain owners only. -/
inductive Ty.Formed (S : Signature) (arity : DeclId → Nat) (p : DeclId → Prop) : Ty → Prop where
  | plain {decl : DeclId} (h : arity decl = 0) : Formed S arity p (.plain decl)
  | applied {decl : DeclId} {args : List Ty} (hkind : (S.kind? decl).isSome)
      (hlen : args.length = arity decl) (hargs : ∀ a ∈ args, Formed S arity p a) :
      Formed S arity p (.applied decl args)
  | param {owner : DeclId} {index : Nat} (howner : p owner) (hindex : index < arity owner) :
      Formed S arity p (.param owner index)

/-- A type that is no parameter, has all its arguments, and none of them is a parameter. -/
def Ty.Concrete (arity : DeclId → Nat) : Ty → Prop
  | .plain decl => arity decl = 0
  | .applied decl args => args.length = arity decl ∧ ∀ a ∈ args, a.isParam = false
  | .param _ _ => False

namespace Ty.Formed

variable {S : Signature} {arity : DeclId → Nat} {p : DeclId → Prop} {decl : DeclId} {t : Ty}

theorem isParam_eq_false (ht : Formed S arity p t) (h : ∀ o, p o → arity o = 0) :
    t.isParam = false := by
  cases ht with
  | plain => rfl
  | applied => rfl
  | @param owner index howner hindex =>
    have := h owner howner
    omega

/-- Once arguments that are no parameters are put for all parameters, no parameter is left at the top. -/
theorem isParam_fill (ht : Formed S arity (· = decl) t) {args : List Ty}
    (hlen : args.length = arity decl) (hargs : ∀ a ∈ args, a.isParam = false) (levels : Nat) :
    (t.fill decl args levels).isParam = false := by
  cases ht with
  | plain => cases levels <;> rfl
  | applied => cases levels <;> rfl
  | @param owner index howner hindex =>
    subst howner
    have hi : index < args.length := by omega
    rw [fill, if_pos rfl, List.getElem?_eq_getElem hi]
    exact hargs _ (List.getElem_mem hi)

/-- Where no owner has parameters, none occur. -/
theorem concrete (ht : Formed S arity p t) (h : ∀ o, p o → arity o = 0) : t.Concrete arity := by
  have hparam := ht.isParam_eq_false h
  cases ht with
  | plain h => exact h
  | applied _ hlen hargs => exact ⟨hlen, fun a ha => (hargs a ha).isParam_eq_false h⟩
  | param => cases hparam

theorem concrete_instantiate (ht : Formed S arity (· = decl) t) (hparam : t.isParam = false)
    {args : List Ty} (hlen : args.length = arity decl) (hargs : ∀ a ∈ args, a.isParam = false) :
    (t.instantiate decl args).Concrete arity := by
  obtain ⟨levels, hlevels⟩ : ∃ n, Limits.instantiation.depth = n + 1 := ⟨_, rfl⟩
  rw [instantiate, hlevels]
  cases ht with
  | plain h => exact h
  | @applied e ts _ hlen' hts =>
    refine ⟨by simpa using hlen', fun a ha => ?_⟩
    obtain ⟨t, ht, rfl⟩ := List.mem_map.1 ha
    exact (hts t ht).isParam_fill hlen hargs levels
  | param => cases hparam

end Ty.Formed

namespace Signature

variable {S : Signature} {arity : DeclId → Nat} {decl : DeclId} {t b i : Ty}

/-- Supertypes and bounds mention only the parameters of their declaration. -/
structure Scoped (S : Signature) (arity : DeclId → Nat) : Prop where
  base : ∀ {decl t}, S.declBase decl = some t → t.Formed S arity (· = decl) ∧ t.isParam = false
  interfaces : ∀ {decl t}, t ∈ S.declInterfaces decl →
    t.Formed S arity (· = decl) ∧ t.isParam = false
  bounds : ∀ {owner index t}, t ∈ S.bounds owner index → t.Formed S arity (· = owner)

theorem isParam_eq_false_of_isKind (h : S.isBaseKind t ∨ S.isInterface t) : t.isParam = false := by
  cases t with
  | plain decl => rfl
  | applied decl args => rfl
  | param owner index => rcases h with h | h <;> cases h

/-! ## Going up -/

/-- What holds of a type and is kept by going up holds of its base chain. -/
theorem forall_mem_chainFrom {P : Ty → Prop} (hbase : ∀ t b, P t → S.baseOf t = some b → P b)
    {steps : Nat} (ht : P t) : ∀ x ∈ S.chainFrom steps t, P x := by
  induction steps generalizing t with
  | zero => simp [chainFrom]
  | succ n ih =>
    rw [chainFrom]
    cases hb : S.baseOf t with
    | none => simpa using ht
    | some base =>
      rintro x (_ | ⟨_, hx⟩)
      · exact ht
      · exact ih (hbase t base ht hb) x hx

theorem forall_mem_collect {P : Ty → Prop} (hdecl : ∀ t i, P t → i ∈ S.declaredBy t → P i)
    {generations : Nat} {seen : List Ty} (hseen : ∀ x ∈ seen, P x) (ht : P t) :
    ∀ x ∈ S.collect generations seen t, P x := by
  induction generations generalizing seen t with
  | zero => exact hseen
  | succ n ih =>
    rw [collect]
    split_ifs
    · exact hseen
    · have hnew : ∀ x ∈ seen ++ [t], P x := by
        intro x hx
        rcases List.mem_append.1 hx with hx | hx
        · exact hseen x hx
        · exact List.mem_singleton.1 hx ▸ ht
      refine List.foldlRecOn (motive := fun acc => ∀ x ∈ acc, P x) _ _ hnew fun acc hacc i hi => ?_
      exact ih hacc (hdecl t i ht hi)

/-- What holds of a type and is kept by going up holds of all its interfaces. -/
theorem forall_mem_closureOf {P : Ty → Prop} (hbase : ∀ t b, P t → S.baseOf t = some b → P b)
    (hdecl : ∀ t i, P t → i ∈ S.declaredBy t → P i) (ht : P t) : ∀ x ∈ S.closureOf t, P x := by
  refine List.foldlRecOn (motive := fun acc => ∀ x ∈ acc, P x) _ _ (by simp)
    fun acc hacc ancestor hanc => ?_
  have hP : P ancestor := forall_mem_chainFrom hbase ht ancestor (List.mem_reverse.1 hanc)
  refine List.foldlRecOn (motive := fun acc => ∀ x ∈ acc, P x) _ _ hacc fun acc hacc i hi => ?_
  exact forall_mem_collect hdecl hacc (hdecl ancestor i hP hi)

namespace Scoped

variable (hS : S.Scoped arity)
include hS

theorem concrete_of_baseOf (ht : t.Concrete arity) (hb : S.baseOf t = some b) :
    b.Concrete arity := by
  cases t with
  | plain decl => exact (hS.base hb).1.concrete fun _ ho => ho ▸ ht
  | applied decl args =>
    obtain ⟨base, hbase, rfl⟩ := Option.map_eq_some_iff.1 hb
    obtain ⟨hformed, hparam⟩ := hS.base hbase
    exact hformed.concrete_instantiate hparam ht.1 ht.2
  | param owner index => cases ht

theorem concrete_of_mem_declaredBy (ht : t.Concrete arity) (hi : i ∈ S.declaredBy t) :
    i.Concrete arity := by
  cases t with
  | plain decl => exact (hS.interfaces hi).1.concrete fun _ ho => ho ▸ ht
  | applied decl args =>
    obtain ⟨interface, hmem, rfl⟩ := List.mem_map.1 hi
    obtain ⟨hformed, hparam⟩ := hS.interfaces hmem
    exact hformed.concrete_instantiate hparam ht.1 ht.2
  | param owner index => cases ht

theorem concrete_of_mem_closureOf (ht : t.Concrete arity) : ∀ x ∈ S.closureOf t, x.Concrete arity :=
  forall_mem_closureOf (fun _ _ => hS.concrete_of_baseOf) (fun _ _ => hS.concrete_of_mem_declaredBy) ht

end Scoped

end Signature

namespace Universe

variable {u : Universe} {ty : Handle} {t : Ty}

/-- The number of parameters of a declaration. -/
def arity (u : Universe) (decl : DeclId) : Nat :=
  ((u.catalog.get? decl).map (·.arity)).getD 0

theorem arity_of_get? {decl : DeclId} {d : Declaration} (h : u.catalog.get? decl = some d) :
    u.arity decl = d.arity := by
  rw [arity, h]
  rfl

/-- The tree of a known type is built as the declarations say. -/
theorem Consistent.formed_of_reads (hu : u.Consistent) (q : DeclId → Bool) (h : u.Reads ty t)
    (hany : t.anyOwner q = false) : t.Formed u.signature u.arity (q · = false) := by
  induction t generalizing ty with
  | plain decl =>
    obtain ⟨d, hd, harity⟩ := hu.fits (hu.shape?_of_reads_plain h)
    exact .plain ((arity_of_get? hd).trans harity)
  | applied decl ts ih =>
    obtain ⟨args, -, hargs⟩ := hu.shape?_of_reads_applied h
    obtain ⟨hknown, rfl⟩ := forall₂_reads_iff.1 hargs
    obtain ⟨d, hd, hlen, -⟩ := hu.exists_catalog_of_reads h
    rw [Ty.anyOwner, Ty.anyOwnerIn_eq_any, List.any_eq_false] at hany
    refine .applied (by simp [signature, hd]) ((arity_of_get? hd).trans hlen).symm fun t ht => ?_
    obtain ⟨arg, harg, rfl⟩ := List.mem_map.1 ht
    exact ih _ ht (reads_typeAt (hknown arg harg)) (by simpa using hany _ ht)
  | param owner index =>
    obtain ⟨d, hd, hlt⟩ := hu.fits (hu.shape?_of_reads_param h)
    exact .param hany (by rwa [arity_of_get? hd])

theorem Consistent.concrete_of_reads (hu : u.Consistent) (h : u.Reads ty t)
    (hclosed : t.isOpen = false) : t.Concrete u.arity :=
  (hu.formed_of_reads _ h hclosed).concrete fun _ ho => absurd ho (by decide)

/-- In a well-declared universe, declarations mention their own parameters only. -/
theorem Consistent.scoped (hu : u.Consistent) (hw : u.WellDeclared) :
    u.signature.Scoped u.arity := by
  have hformed : ∀ {decl d}, u.catalog.get? decl = some d → ∀ ty ∈ d.mentioned,
      (u.typeAt ty).Formed u.signature u.arity (· = decl) := by
    intro decl d hd ty hty
    have hr := reads_typeAt (hu.contains_of_mem_mentioned hd hty)
    have hscope := hw.scope hd ty hty
    rw [hu.anyOwner_of_reads _ hr] at hscope
    simpa using hu.formed_of_reads _ hr hscope
  refine ⟨fun {decl t} ht => ?_, fun {decl t} ht => ?_, fun {owner index t} ht => ?_⟩
  · obtain ⟨base, hbase, rfl⟩ := Option.map_eq_some_iff.1 ht
    obtain ⟨d, hd, hb⟩ := Option.bind_eq_some_iff.1 hbase
    have hmem : base ∈ d.mentioned := Declaration.mem_mentioned.2 (Or.inl hb)
    have hkind := hu.base hd hb
    rw [hu.isBaseKind_of_reads (reads_typeAt (contains_of_isBaseKind hkind))] at hkind
    exact ⟨hformed hd base hmem, Signature.isParam_eq_false_of_isKind (Or.inl hkind)⟩
  · obtain ⟨interface, hmem, rfl⟩ := List.mem_map.1 ht
    cases hd : u.catalog.get? decl with
    | none => simp [hd] at hmem
    | some d =>
      rw [hd] at hmem
      have hkind := hu.interfaces hd interface hmem
      rw [hu.isInterface_of_reads (reads_typeAt (contains_of_isInterface hkind))] at hkind
      exact ⟨hformed hd interface (Declaration.mem_mentioned.2 (Or.inr (Or.inl hmem))),
        Signature.isParam_eq_false_of_isKind (Or.inr hkind)⟩
  · obtain ⟨bound, hmem, rfl⟩ := List.mem_map.1 ht
    cases hp : u.parameter? owner index with
    | none => simp [hp] at hmem
    | some p =>
      obtain ⟨d, hd, hget⟩ := Option.bind_eq_some_iff.1 hp
      rw [hp] at hmem
      exact hformed hd bound
        (Declaration.mem_mentioned.2 (Or.inr (Or.inr ⟨p, List.mem_of_getElem? hget, hmem⟩)))

/-- Every operation on known handles keeps declarations well-formed. -/
theorem WellDeclared.operation (hw : u.WellDeclared) (hu : u.Valid) {op : Operation}
    (hop : ∀ ty ∈ op.handles, u.contains ty) (j : Journal) : (op.run ⟨u, j⟩).2.univ.WellDeclared := by
  have hargs : op.argsKnown u := by
    cases op with
    | instantiate ty owner args =>
      exact List.all_eq_true.2 fun a ha => hop a (List.mem_cons_of_mem _ ha)
    | _ => rfl
  exact (op.evolves_run (A := fun _ => True) hu.grounded hargs (fun _ _ _ => trivial)
    j).wellDeclared hw

theorem Built.wellDeclared (h : u.Built) : u.WellDeclared := by
  induction h with
  | empty => exact Step.wellDeclared_fresh
  | step hu hop j ih => exact ih.operation hu.valid hop j

theorem Built.scoped (h : u.Built) : u.signature.Scoped u.arity :=
  h.valid.consistent.scoped h.wellDeclared

end Universe

end Subtyping
