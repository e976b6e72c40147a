import Subtyping.Manifest.Build
import Subtyping.Proofs.Attachments
import Subtyping.Proofs.Expressions
import Subtyping.Proofs.Interning
import Subtyping.Proofs.WellDeclared

/-!
# What a file attaches

Once all declarations of a file are there, the rest of the file is a list of references: texts that
stand for a type (`Universe.attachment?`) and say where it is attached. What a universe holds while the
list is worked off is a matter of what has been attached so far (`Universe.Presents`): its signature, its
types and no closures. Attaching succeeds exactly if every text stands for a type and all attachments
together are allowed (`Manifest.Decl.attach_enacts`).
-/

namespace Subtyping

open Relation UniverseM

/-! ## Names -/

namespace Declaration.Alike

variable {d d' : Declaration}

theorem isGeneric (h : d.Alike d') : d'.isGeneric = d.isGeneric := by
  have hlen := h.arity
  rw [Declaration.arity, Declaration.arity] at hlen
  rw [Declaration.isGeneric, Declaration.isGeneric, Bool.eq_iff_iff]
  simp [← List.length_eq_zero_iff, hlen]

/-- Parameters are found by name at the same place. -/
theorem findIdx? (h : d.Alike d') (name : String) :
    d'.parameters.findIdx? (·.name == name) = d.parameters.findIdx? (·.name == name) := by
  have hmap : ∀ ps : List Parameter,
      ps.findIdx? (·.name == name) = (ps.map (·.name)).findIdx? (· == name) := fun ps => by
    rw [List.findIdx?_map]
    rfl
  rw [hmap, hmap, h.parameters]

end Declaration.Alike

namespace Universe

variable {u v w : Universe} {g : DeclId → DeclId}

/-- The second universe has the names of the first one, for declarations under other numbers. -/
structure Speaks (g : DeclId → DeclId) (u v : Universe) : Prop where
  named? : ∀ name, v.named? name = (u.named? name).map (Ty.rename g)
  alike : ∀ decl, Option.Rel Declaration.Alike (u.catalog.get? decl) (v.catalog.get? (g decl))

namespace Speaks

theorem refl (u : Universe) : u.Speaks id u :=
  ⟨fun name => by rw [funext Ty.rename_id, Option.map_id'], fun _ => Declaration.Alike.rel_refl _⟩

theorem trans_same (h : u.Speaks g v) (hnamed : ∀ name, w.named? name = v.named? name)
    (halike : ∀ decl, Option.Rel Declaration.Alike (v.catalog.get? decl) (w.catalog.get? decl)) :
    u.Speaks g w :=
  ⟨fun name => (hnamed name).trans (h.named? name),
    fun decl => Declaration.Alike.rel_trans (h.alike decl) (halike _)⟩

theorem paramNamed? (h : u.Speaks g v) (name : String) (owner : DeclId) :
    v.paramNamed? name (g owner) = (u.paramNamed? name owner).map (Ty.rename g) := by
  unfold Universe.paramNamed?
  rcases Declaration.Alike.rel_cases (h.alike owner) with ⟨hu, hv⟩ | ⟨d, d', hu, hv, hd⟩
  · rw [hu, hv]
    rfl
  · rw [hu, hv, Option.bind_some, Option.bind_some, hd.findIdx? name, Option.map_map]
    rfl

theorem applied? (h : u.Speaks g v) (definition : Ty) (args : List Ty) :
    v.applied? (definition.rename g) (args.map (Ty.rename g)) =
      (u.applied? definition args).map (Ty.rename g) := by
  unfold Universe.applied?
  rw [Ty.head?_rename]
  cases definition.head? with
  | none => rfl
  | some decl =>
    rw [Option.map_some, Option.bind_some, Option.bind_some]
    rcases Declaration.Alike.rel_cases (h.alike decl) with ⟨hu, hv⟩ | ⟨d, d', hu, hv, hd⟩
    · rw [hu, hv]
      rfl
    · rw [hu, hv, Option.bind_some, Option.bind_some, hd.isGeneric, hd.arity, List.length_map]
      split_ifs
      · rw [Option.map_some, Ty.rename_applied]
      · rfl

mutual

/-- An expression stands for the same tree, under other numbers. -/
theorem denote (h : u.Speaks g v) (scope : Option DeclId) : ∀ e : TypeExpr,
    v.denote (scope.map g) e = (u.denote scope e).map (Ty.rename g)
  | .name n => by
    rw [Universe.denote, Universe.denote, h.named?, Option.bind_map, Option.map_or, Option.map_bind,
      Option.map_bind, Option.bind_map]
    congr 1
    · exact congrArg scope.bind (funext fun owner => h.paramNamed? n owner)
    · refine congrArg (u.named? n).bind (funext fun t => ?_)
      simp only [Function.comp_apply, Option.guard, Ty.isGeneric_rename]
      split_ifs <;> rfl
  | .slots n arity => by
    rw [Universe.denote, Universe.denote, h.named?, Option.bind_map, Option.map_bind]
    refine congrArg (u.named? n).bind (funext fun t => ?_)
    simp only [Function.comp_apply, Option.guard, Ty.isGeneric_rename, Ty.args_rename, List.length_map]
    split_ifs <;> rfl
  | .apply n args => by
    rw [Universe.denote, Universe.denote, h.named?, Option.bind_map, Option.map_bind]
    refine congrArg (u.named? n).bind (funext fun t => ?_)
    simp only [Function.comp_apply]
    rw [denoteAll h scope args, Option.bind_map, Option.map_bind]
    exact congrArg (u.denoteAll scope args).bind (funext fun ts => h.applied? t ts)

theorem denoteAll (h : u.Speaks g v) (scope : Option DeclId) : ∀ es : List TypeExpr,
    v.denoteAll (scope.map g) es = (u.denoteAll scope es).map (List.map (Ty.rename g))
  | [] => by
    rw [Universe.denoteAll, Universe.denoteAll]
    rfl
  | e :: es => by
    rw [Universe.denoteAll, Universe.denoteAll, denote h scope e, denoteAll h scope es, Option.bind_map,
      Option.map_bind]
    refine congrArg (u.denote scope e).bind (funext fun t => ?_)
    simp only [Function.comp_apply, Option.map_map]
    rfl

end

theorem denoteText (h : u.Speaks g v) (scope : Option DeclId) (input : String) :
    v.denoteText (scope.map g) input = (u.denoteText scope input).map (Ty.rename g) := by
  rw [Universe.denoteText, Universe.denoteText, Option.map_bind]
  exact congrArg _ (funext (h.denote scope))

end Speaks

end Universe

/-! ## Work that succeeds under a condition -/

section Hinges

variable {ε α β : Type} {u v : Universe} {P P' : Prop} {Q : α → Universe → Prop}
  {R : β → Universe → Prop}

/-- Work begun on `u` succeeds and ends with `Q`, or else it fails and a condition is not met. -/
def Hinges (u : Universe) (x : ExceptT ε UniverseM α) (P : Prop) (Q : α → Universe → Prop) : Prop :=
  ∀ j, (∃ a, (x.run ⟨u, j⟩).1 = .ok a ∧ Q a (x.run ⟨u, j⟩).2.univ) ∨
    (∃ e, (x.run ⟨u, j⟩).1 = .error e) ∧ ¬ P

namespace Hinges

theorem pure {a : α} (h : Q a u) : Hinges u (pure a : ExceptT ε UniverseM α) P Q :=
  fun _ => Or.inl ⟨a, rfl, h⟩

theorem bind {x : ExceptT ε UniverseM α} {f : α → ExceptT ε UniverseM β} (hx : Hinges u x P Q)
    (hP : P' → P) (hf : ∀ a v, Q a v → Hinges v (f a) P' R) : Hinges u (x >>= f) P' R := by
  intro j
  rw [run_except_bind]
  rcases hx j with ⟨a, ha, hq⟩ | ⟨⟨e, he⟩, hnot⟩
  · rw [ha]
    exact hf a _ hq (x.run ⟨u, j⟩).2.journal
  · rw [he]
    exact Or.inr ⟨⟨e, rfl⟩, mt hP hnot⟩

theorem imp {Q' : α → Universe → Prop} {x : ExceptT ε UniverseM α} (h : Hinges u x P Q) (hP : P' → P)
    (hQ : ∀ a v, Q a v → Q' a v) : Hinges u x P' Q' :=
  fun j => (h j).imp (Exists.imp fun a ha => ⟨ha.1, hQ a _ ha.2⟩) (And.imp_right (mt hP))

theorem mapError {ε' : Type} {x : ExceptT ε UniverseM α} (h : Hinges u x P Q) (f : ε → ε') :
    Hinges u (ExceptT.mk (do return (← x.run).mapError f) : ExceptT ε' UniverseM α) P Q := by
  intro j
  rcases h j with ⟨a, ha, hq⟩ | ⟨⟨e, he⟩, hnot⟩
  · exact Or.inl ⟨a, congrArg (Except.mapError f) ha, hq⟩
  · exact Or.inr ⟨⟨f e, congrArg (Except.mapError f) he⟩, hnot⟩

theorem within {x : Attempt α} (h : Hinges u x P Q) (context : Context) :
    Hinges u (Attempt.within context x) P Q :=
  h.mapError _

theorem ofDeclaring {x : Declaring α} (h : Hinges u x P Q) : Hinges u (Attempt.ofDeclaring x) P Q :=
  h.mapError _

/-- Work that gives something succeeds exactly if there is something to be given. -/
theorem of_gives {γ : Type} {G : Universe → α → γ → Prop} {x : ExceptT ε UniverseM α} {t : Option γ}
    (hx : Gives G u x t) :
    Hinges u x (∃ c, t = some c) fun a v => u.Grows v ∧ ∃ c, t = some c ∧ G v a c := by
  intro j
  cases hr : (x.run ⟨u, j⟩).1 with
  | ok a => exact Or.inl ⟨a, rfl, (hx j).1, hx.exists_of_eq_ok hr⟩
  | error e =>
    refine Or.inr ⟨⟨e, rfl⟩, ?_⟩
    rintro ⟨c, rfl⟩
    obtain ⟨a, ha, -⟩ := hx.exists_eq_ok j
    cases hr.symm.trans ha

end Hinges

end Hinges

/-! ## Attaching one type -/

namespace Universe

variable {u v w : Universe} {decl : DeclId} {d : Declaration} {f : Declaration → Declaration}
  {a : Attachment} {ty b : Handle} {t : Ty} {l : List Attachment}

/-- Heads of supertypes are read off the signature. -/
theorem Consistent.inherits_iff_parent (hu : u.Consistent) {x y : DeclId} :
    u.Inherits x y ↔ u.signature.Parent x y := by
  rw [inherits_iff, Signature.Parent]
  cases hd : u.catalog.get? x with
  | none => simp [signature, hd]
  | some d =>
    have hbase : ∀ ty, d.base = some ty → u.head? ty = (u.typeAt ty).head? := fun ty h =>
      hu.head?_of_reads (reads_typeAt (contains_of_isBaseKind (hu.base hd h)))
    have hints : ∀ ty ∈ d.interfaces, u.head? ty = (u.typeAt ty).head? := fun ty h =>
      hu.head?_of_reads (reads_typeAt (contains_of_isInterface (hu.interfaces hd ty h)))
    simp only [signature, hd, Option.some.injEq, exists_eq_left', Option.bind_some, Option.map_some,
      Option.getD_some, Option.map_eq_some_iff, List.mem_map, or_and_right, exists_or]
    refine or_congr ⟨?_, ?_⟩ ⟨?_, ?_⟩
    · rintro ⟨ty, hty, hh⟩
      exact ⟨_, ⟨ty, hty, rfl⟩, hbase ty hty ▸ hh⟩
    · rintro ⟨_, ⟨ty, hty, rfl⟩, hh⟩
      exact ⟨ty, hty, (hbase ty hty).trans hh⟩
    · rintro ⟨ty, hty, hh⟩
      exact ⟨_, ⟨ty, hty, rfl⟩, hints ty hty ▸ hh⟩
    · rintro ⟨_, ⟨ty, hty, rfl⟩, hh⟩
      exact ⟨ty, hty, (hints ty hty).trans hh⟩

/-- What a signature says of a declaration. -/
theorem signature_of_get? (hd : u.catalog.get? decl = some d) :
    u.signature.declBase decl = d.base.map u.typeAt ∧
      u.signature.declInterfaces decl = d.interfaces.map u.typeAt ∧
      u.signature.bounds decl = fun index =>
        (((d.parameters[index]?).map (·.constraints)).getD []).map u.typeAt := by
  simp [signature, parameter?, hd]

/-- What a signature says after a declaration was changed in place. -/
theorem signature_revised_eq {S : Signature} (hd : u.catalog.get? decl = some d)
    (hkind : ∀ d, (f d).kind = d.kind) (hsize : S.size = u.signature.size)
    (hkind? : S.kind? = u.signature.kind?)
    (hbase : S.declBase = Function.update u.signature.declBase decl ((f d).base.map u.typeAt))
    (hints : S.declInterfaces =
      Function.update u.signature.declInterfaces decl ((f d).interfaces.map u.typeAt))
    (hbounds : S.bounds = Function.update u.signature.bounds decl fun index =>
      ((((f d).parameters[index]?).map (·.constraints)).getD []).map u.typeAt) :
    (u.revised decl f).signature = S := by
  obtain ⟨size, kind?, declBase, declInterfaces, bounds⟩ := S
  subst hsize hkind? hbase hints hbounds
  simp only [signature, Signature.mk.injEq, parameter?]
  have htype : (u.revised decl f).typeAt = u.typeAt := rfl
  refine ⟨u.catalog.size_modify decl f, funext fun x => ?_, funext fun x => ?_, funext fun x => ?_,
    funext fun x => ?_⟩ <;> rw [get?_revised]
  · split_ifs
    · rw [Option.map_map]
      exact congrArg (Option.map · _) (funext hkind)
    · rfl
  all_goals
    by_cases hx : decl = x
    · subst hx
      simp [hd, htype]
    · simp [hx, Ne.symm hx, htype]

/-- The second universe is the first one with one more type attached. -/
structure Attaches (u v : Universe) (a : Attachment) : Prop where
  valid : v.Valid
  table : v.table = u.table
  ownTypes : v.ownTypes = u.ownTypes
  names : v.catalog.names = u.catalog.names
  alike : ∀ x, Option.Rel Declaration.Alike (u.catalog.get? x) (v.catalog.get? x)
  signature : v.signature = u.signature.attach a
  closures : u.closures = ∅ → v.closures = ∅

theorem attaches_revised (hvalid : (u.revised decl f).Valid) (hf : ∀ d : Declaration, d.Alike (f d))
    (hsig : (u.revised decl f).signature = u.signature.attach a) :
    u.Attaches (u.revised decl f) a := by
  refine ⟨hvalid, rfl, rfl, u.catalog.names_modify decl f, fun x => ?_, hsig, fun _ => rfl⟩
  rw [get?_revised]
  cases u.catalog.get? x with
  | none => split_ifs <;> exact .none
  | some d =>
    split_ifs
    · exact .some (hf d)
    · exact .some (.refl d)

/-- A declaration is not found on the way up from a type exactly if it cannot be reached. -/
theorem Consistent.any_inheritsFrom_eq_false_iff (hu : u.Consistent) (hb : u.Reads b t) {k : Kind}
    (hk : u.kind? b = some k) :
    (u.head? b).any (u.inheritsFrom · decl) = false ↔
      ∀ parent, t.head? = some parent → ¬ ReflTransGen u.signature.Parent parent decl := by
  have hsame : u.signature.Parent = u.Inherits := by
    funext x y
    exact propext hu.inherits_iff_parent.symm
  rw [hsame, Option.any_eq_false]
  refine forall_congr' fun parent => ?_
  rw [hu.head?_of_reads hb]
  refine imp_congr_right fun hp => ?_
  rw [← Bool.not_eq_true]
  refine not_congr ⟨reaches_of_inheritsFrom, ?_⟩
  rw [← hu.head?_of_reads hb] at hp
  exact hu.inheritsFrom_of_reaches (mem_declIds_of_kind? hk hp)

theorem Consistent.permits_base_iff (hu : u.Consistent) (hd : u.catalog.get? decl = some d)
    (hb : u.Reads b t) :
    u.signature.Permits ⟨decl, .base, t⟩ ↔ d.isInterface = false ∧ u.isBaseKind b ∧
      u.anyOwner (· != decl) b = false ∧ (u.head? b).any (u.inheritsFrom · decl) = false := by
  have hclass : u.signature.kind? decl ≠ some .interfaceKind ↔ d.isInterface = false := by
    simp [signature, hd, Declaration.isInterface]
  simp only [Signature.Permits, Signature.Admits, hclass, ← hu.isBaseKind_of_reads hb,
    ← hu.anyOwner_of_reads _ hb, Slot.isSupertype, true_implies]
  constructor
  · rintro ⟨⟨hscope, hclass, hkind⟩, hpath⟩
    obtain ⟨k, hk⟩ := exists_kind?_of_isBaseKind hkind
    exact ⟨hclass, hkind, hscope, (hu.any_inheritsFrom_eq_false_iff hb hk).2 hpath⟩
  · rintro ⟨hclass, hkind, hscope, hany⟩
    obtain ⟨k, hk⟩ := exists_kind?_of_isBaseKind hkind
    exact ⟨⟨hscope, hclass, hkind⟩, (hu.any_inheritsFrom_eq_false_iff hb hk).1 hany⟩

theorem Consistent.permits_interface_iff (hu : u.Consistent) (hb : u.Reads b t) :
    u.signature.Permits ⟨decl, .interface, t⟩ ↔ u.isInterface b ∧
      u.anyOwner (· != decl) b = false ∧ (u.head? b).any (u.inheritsFrom · decl) = false := by
  simp only [Signature.Permits, Signature.Admits, ← hu.isInterface_of_reads hb,
    ← hu.anyOwner_of_reads _ hb, Slot.isSupertype, true_implies]
  have hk : u.isInterface b → u.kind? b = some .interfaceKind := fun h => by
    simpa [isInterface] using h
  constructor
  · rintro ⟨⟨hscope, hkind⟩, hpath⟩
    exact ⟨hkind, hscope, (hu.any_inheritsFrom_eq_false_iff hb (hk hkind)).2 hpath⟩
  · rintro ⟨hkind, hscope, hany⟩
    exact ⟨⟨hscope, hkind⟩, (hu.any_inheritsFrom_eq_false_iff hb (hk hkind)).1 hany⟩

/-- A base is attached if the signature permits it. -/
theorem Valid.setBase_hinges (hu : u.Valid) (hown : u.ownType? decl = some ty) (hb : u.Reads b t) :
    Hinges u (Declaring.setBase ty b) (u.signature.Permits ⟨decl, .base, t⟩) fun _ v =>
      u.signature.Permits ⟨decl, .base, t⟩ ∧ u.Attaches v ⟨decl, .base, t⟩ := by
  obtain ⟨d, hd, -⟩ := hu.reads_of_ownType? hown
  rw [hu.consistent.permits_base_iff hd hb]
  intro j
  rw [Declaring.run_setBase]
  dsimp only
  cases hcheck : u.checkBase ty b with
  | error e =>
    refine Or.inr ⟨⟨e, rfl⟩, ?_⟩
    rintro ⟨hclass, hkind, hscope, hany⟩
    rw [hu.grounded.checkBase_eq hown hd hclass hkind hscope, hany] at hcheck
    cases hcheck
  | ok decl' =>
    obtain ⟨d', hd', hclass, hkind, hscope, hany⟩ := checkBase_eq_ok hcheck
    rw [hu.grounded.ownDeclarationOf_eq hown hd] at hd'
    cases hd'
    obtain ⟨-, hints, hbounds⟩ := signature_of_get? hd
    refine Or.inl ⟨(), rfl, ⟨hclass, hkind, hscope, hany⟩,
      attaches_revised (hu.withBase hkind hany) (fun _ => ⟨rfl, rfl, rfl⟩) ?_⟩
    refine signature_revised_eq hd (fun _ => rfl) rfl rfl ?_ ?_ ?_
    · rw [← hb.2]
      rfl
    · exact (Function.update_eq_self_iff.2 hints.symm).symm
    · exact (Function.update_eq_self_iff.2 hbounds.symm).symm

/-- The trees of a list after a handle is appended, if it is new. -/
theorem Consistent.map_typeAt_append_new (hu : u.Consistent) {l : List Handle}
    (hl : ∀ i ∈ l, u.contains i) (hb : u.Reads b t) :
    (if b ∈ l then l else l ++ [b]).map u.typeAt = listing (l.map u.typeAt) t := by
  rw [listing]
  simp only [← hu.mem_iff_of_reads (forall₂_reads_map hl) hb]
  split_ifs
  · rfl
  · rw [List.map_append, List.map_singleton, hb.2]

/-- So is an interface. -/
theorem Valid.addInterface_hinges (hu : u.Valid) (hown : u.ownType? decl = some ty)
    (hb : u.Reads b t) :
    Hinges u (Declaring.addInterface ty b) (u.signature.Permits ⟨decl, .interface, t⟩) fun _ v =>
      u.signature.Permits ⟨decl, .interface, t⟩ ∧ u.Attaches v ⟨decl, .interface, t⟩ := by
  obtain ⟨d, hd, -⟩ := hu.reads_of_ownType? hown
  rw [hu.consistent.permits_interface_iff hb]
  intro j
  rw [Declaring.run_addInterface]
  dsimp only
  cases hcheck : u.checkInterface ty b with
  | error e =>
    refine Or.inr ⟨⟨e, rfl⟩, ?_⟩
    rintro ⟨hkind, hscope, hany⟩
    rw [hu.grounded.checkInterface_eq hown hd hkind hscope, hany] at hcheck
    cases hcheck
  | ok p =>
    obtain ⟨decl', d'⟩ := p
    obtain ⟨hd', hkind, hscope, hany⟩ := checkInterface_eq_ok hcheck
    rw [hu.grounded.ownDeclarationOf_eq hown hd] at hd'
    obtain ⟨rfl, rfl⟩ := Prod.mk.inj (Except.ok.inj hd')
    obtain ⟨hbase, hints, hbounds⟩ := signature_of_get? hd
    refine Or.inl ⟨(), rfl, ⟨hkind, hscope, hany⟩, ?_⟩
    have hlist := hu.consistent.map_typeAt_append_new
      (fun i hi => contains_of_isInterface (hu.consistent.interfaces hd i hi)) hb
    dsimp only
    split_ifs at hlist ⊢ with hmem
    · refine ⟨hu, rfl, rfl, rfl, fun _ => Declaration.Alike.rel_refl _, ?_, id⟩
      have hsame : u.signature.attach ⟨decl, .interface, t⟩ = u.signature := by
        rw [Signature.attach]
        dsimp only
        rw [hints, ← hlist, ← hints, Function.update_eq_self]
      exact hsame.symm
    · refine attaches_revised (hu.withInterface hkind hany) (.withInterface · b) ?_
      refine signature_revised_eq hd (fun d => (frame_withInterface d b).1) rfl rfl ?_ ?_ ?_
      · rw [(frame_withInterface d b).2.1]
        exact (Function.update_eq_self_iff.2 hbase.symm).symm
      · rw [Declaration.withInterface, if_neg hmem, hlist, ← hints]
        rfl
      · rw [(frame_withInterface d b).2.2]
        exact (Function.update_eq_self_iff.2 hbounds.symm).symm

/-- And a bound of a parameter. -/
theorem Valid.addConstraint_hinges (hu : u.Valid) {index : Nat} (hty : u.Reads ty (.param decl index))
    (hb : u.Reads b t) :
    Hinges u (Declaring.addConstraint ty b) (u.signature.Permits ⟨decl, .bound index, t⟩) fun _ v =>
      u.signature.Permits ⟨decl, .bound index, t⟩ ∧ u.Attaches v ⟨decl, .bound index, t⟩ := by
  have hshape := hu.consistent.shape?_of_reads_param hty
  obtain ⟨d, hd, hlt⟩ := hu.consistent.fits hshape
  have hpermits : u.signature.Permits ⟨decl, .bound index, t⟩ ↔
      u.anyOwner (· != decl) b = false := by
    simp [Signature.Permits, Signature.Admits, Slot.isSupertype, hu.consistent.anyOwner_of_reads _ hb]
  rw [hpermits]
  have hcheck : u.checkConstraint ty b = (u.checkScope decl d b >>= fun _ => .ok (decl, index)) := by
    simp only [checkConstraint, hshape, hb.1, hd]
    rfl
  intro j
  rw [Declaring.run_addConstraint]
  dsimp only
  rw [hcheck, checkScope]
  cases hscope : u.anyOwner (· != decl) b with
  | true => exact Or.inr ⟨⟨_, rfl⟩, Bool.noConfusion⟩
  | false =>
    obtain ⟨hbase, hints, hbounds⟩ := signature_of_get? hd
    refine Or.inl ⟨(), rfl, rfl,
      attaches_revised (hu.withConstraint index hb.1) (.withConstraint · index b) ?_⟩
    refine signature_revised_eq hd (fun _ => rfl) rfl rfl ?_ ?_ ?_
    · exact (Function.update_eq_self_iff.2 hbase.symm).symm
    · exact (Function.update_eq_self_iff.2 hints.symm).symm
    · refine congrArg (Function.update _ _) (funext fun i => ?_)
      rw [constraints_withConstraint d b hlt]
      by_cases hi : index = i
      · subst hi
        have hknown : ∀ c ∈ ((d.parameters[index]?).map (·.constraints)).getD [], u.contains c := by
          rw [List.getElem?_eq_getElem hlt]
          exact hu.consistent.bounds hd _ (List.getElem_mem hlt)
        rw [if_pos rfl, Function.update_self, hbounds]
        exact (hu.consistent.map_typeAt_append_new hknown hb).symm
      · rw [if_neg hi, Function.update_of_ne (Ne.symm hi), hbounds]
        rfl

end Universe

/-! ## Attaching type after type -/

/-- A text that stands for a type, and what that type is attached to. -/
structure Reference where
  decl : DeclId
  slot : Slot
  text : String

/-- What the type is attached to. -/
def Reference.key (r : Reference) : DeclId × Slot :=
  (r.decl, r.slot)

namespace Universe

variable {u v w x : Universe} {a : Attachment} {ty b : Handle} {t : Ty} {l as : List Attachment}
  {r : Reference} {rs rs' : List Reference}

/-- What a reference attaches, if its text stands for a type. -/
def attachment? (u : Universe) (r : Reference) : Option Attachment :=
  (u.denoteText (some r.decl) r.text).map fun type => { decl := r.decl, slot := r.slot, type }

theorem key_of_attachment?_eq_some (h : u.attachment? r = some a) : a.key = r.key := by
  obtain ⟨t, -, rfl⟩ := Option.map_eq_some_iff.1 h
  rfl

theorem map_key_of_mapM_eq_some (h : rs.mapM u.attachment? = some as) :
    as.map (·.key) = rs.map (·.key) := by
  induction rs generalizing as with
  | nil =>
    obtain rfl := Option.some.inj h
    rfl
  | cons r rs ih =>
    rw [List.mapM_cons] at h
    obtain ⟨a, ha, h⟩ := Option.bind_eq_some_iff.1 h
    obtain ⟨as', has, h⟩ := Option.bind_eq_some_iff.1 h
    obtain rfl := Option.some.inj h
    rw [List.map_cons, List.map_cons, key_of_attachment?_eq_some ha, ih has]

theorem mapM_append_eq_some_iff :
    (rs ++ rs').mapM u.attachment? = some as ↔ ∃ as₁ as₂, rs.mapM u.attachment? = some as₁ ∧
      rs'.mapM u.attachment? = some as₂ ∧ as = as₁ ++ as₂ := by
  rw [List.mapM_append]
  simp only [Option.bind_eq_bind, Option.bind_eq_some_iff, Option.pure_def, Option.some.injEq]
  constructor
  · rintro ⟨as₁, h₁, as₂, h₂, rfl⟩
    exact ⟨as₁, as₂, h₁, h₂, rfl⟩
  · rintro ⟨as₁, as₂, h₁, h₂, rfl⟩
    exact ⟨as₁, h₁, as₂, h₂, rfl⟩

/-- The second universe is the first one with types attached in the given order. It has no types that
are not part of these. -/
structure Presents (u : Universe) (l : List Attachment) (v : Universe) : Prop where
  valid : v.Valid
  speaks : u.Speaks id v
  names : v.catalog.names = u.catalog.names
  ownTypes : v.ownTypes = u.ownTypes
  table : u.table.Extends v.table
  signature : v.signature = l.foldl Signature.attach u.signature
  allows : u.signature.Allows l
  has_iff : ∀ t, v.Has t ↔ u.Has t ∨ ∃ a ∈ l, t.Part a.type
  closures : v.closures = ∅

theorem Valid.presents_nil (hu : u.Valid) (hclosures : u.closures = ∅) : u.Presents [] u := by
  refine ⟨hu, .refl u, rfl, rfl, .refl _, rfl, ⟨by simp, fun x hx => ?_⟩, by simp, hclosures⟩
  obtain ⟨y, ⟨a, ha, -⟩, -⟩ := TransGen.head'_iff.1 hx
  cases ha

theorem Grows.has (h : v.Grows w) (ht : v.Has t) : w.Has t :=
  ht.imp fun _ => h.reads

/-- A tree that is gained brings along its parts. -/
theorem Gains.has_iff (h : v.Gains w ty t) (hv : v.Grows w) (s : Ty) :
    w.Has s ↔ v.Has s ∨ s.Part t :=
  ⟨h.parts s, fun hs => hs.elim hv.has fun hs => hv.after.has_of_part hs ⟨ty, h.reads⟩⟩

namespace Presents

variable (h : u.Presents l v)
include h

theorem ownType? (decl : DeclId) : v.ownType? decl = u.ownType? decl := by
  unfold Universe.ownType?
  rw [h.ownTypes]

theorem denoteText (scope : Option DeclId) (text : String) :
    v.denoteText scope text = u.denoteText scope text := by
  have hsame := h.speaks.denoteText scope text
  rwa [Option.map_id, id, funext Ty.rename_id, Option.map_id'] at hsame

theorem reads (hu : u.Consistent) (hr : u.Reads ty t) : v.Reads ty t :=
  ⟨h.table.isSome hr.1, (h.table.typeAt_eq hu.table h.valid.consistent.table hr.1).trans hr.2⟩

/-- Looking for a type that is there changes nothing. -/
theorem grow (hv : v.Grows w) (hg : v.Gains w ty t) (ht : v.Has t) : u.Presents l w := by
  refine ⟨hv.valid h.valid, h.speaks.trans_same (hv.named? h.valid) fun decl => ?_, ?_, ?_,
    h.table.trans hv.table, hv.signature.trans h.signature, h.allows, fun s => ?_,
    hg.closures.trans h.closures⟩
  · rw [hv.catalog]
    exact Declaration.Alike.rel_refl _
  · rw [hv.catalog, h.names]
  · rw [hv.ownTypes, h.ownTypes]
  · rw [hg.has_iff hv, ← h.has_iff]
    exact ⟨fun hs => hs.elim id fun hs => h.valid.consistent.has_of_part hs ht, Or.inl⟩

/-- One more type is resolved and attached. -/
theorem attach (hv : v.Grows w) (hg : v.Gains w b a.type) (ha : w.Attaches x a)
    (hallows : u.signature.Allows (l ++ [a])) : u.Presents (l ++ [a]) x := by
  have hlookup : ∀ name, x.lookup name = w.lookup name := fun name => by
    unfold lookup Catalog.named? Universe.ownType?
    rw [ha.names, ha.ownTypes]
  have htype : x.typeAt = w.typeAt := by
    funext ty
    rw [typeAt, typeAt, ha.table]
  have hnamed : ∀ name, x.named? name = v.named? name := fun name => by
    rw [← hv.named? h.valid, named?, named?, hlookup, htype]
  have hhas : ∀ s, x.Has s ↔ w.Has s := fun s => by
    simp only [Has, Reads, contains, shape?, htype, ha.table]
  refine ⟨ha.valid, h.speaks.trans_same hnamed fun decl => ?_, ?_, ?_, ?_, ?_, hallows, fun s => ?_,
    ha.closures (hg.closures.trans h.closures)⟩
  · rw [← hv.catalog]
    exact ha.alike decl
  · rw [ha.names, hv.catalog, h.names]
  · rw [ha.ownTypes, hv.ownTypes, h.ownTypes]
  · rw [ha.table]
    exact h.table.trans hv.table
  · rw [ha.signature, hv.signature, h.signature, List.foldl_append, List.foldl_cons, List.foldl_nil]
  · rw [hhas, hg.has_iff hv, h.has_iff, or_assoc]
    simp [or_and_right, exists_or]

end Presents

/-- Work that deals with references attaches what they stand for, and succeeds exactly if they stand for
something that is allowed. -/
def Enacts (u : Universe) (x : Attempt PUnit) (rs : List Reference) : Prop :=
  ∀ l v, u.Presents l v → Attachment.OneBase (l.map (·.key) ++ rs.map (·.key)) →
    Hinges v x (∃ as, rs.mapM u.attachment? = some as ∧ u.signature.Allows (l ++ as)) fun _ w =>
      ∃ as, rs.mapM u.attachment? = some as ∧ u.Presents (l ++ as) w

namespace Enacts

theorem pure : u.Enacts (pure ⟨⟩) [] :=
  fun l _ hv _ => Hinges.pure ⟨[], rfl, (List.append_nil l).symm ▸ hv⟩

theorem bind {x y : Attempt PUnit} (hx : u.Enacts x rs) (hy : u.Enacts y rs') :
    u.Enacts (x >>= fun _ => y) (rs ++ rs') := by
  intro l v hv hone
  rw [List.map_append, ← List.append_assoc] at hone
  refine Hinges.bind (hx l v hv (hone.sublist (List.sublist_append_left _ _))) ?_ fun _ w hw => ?_
  · rintro ⟨as, has, hallows⟩
    obtain ⟨as₁, as₂, h₁, -, rfl⟩ := mapM_append_eq_some_iff.1 has
    exact ⟨as₁, h₁, hallows.mono (by rw [← List.append_assoc]; exact List.subset_append_left _ _)⟩
  · obtain ⟨as₁, h₁, hw⟩ := hw
    rw [← map_key_of_mapM_eq_some h₁, ← List.map_append] at hone
    refine (hy _ w hw hone).imp ?_ ?_
    · rintro ⟨as, has, hallows⟩
      obtain ⟨as₁', as₂, h₁', h₂, rfl⟩ := mapM_append_eq_some_iff.1 has
      cases h₁.symm.trans h₁'
      exact ⟨as₂, h₂, by rwa [List.append_assoc]⟩
    · rintro _ x ⟨as₂, h₂, hx⟩
      exact ⟨as₁ ++ as₂, mapM_append_eq_some_iff.2 ⟨as₁, as₂, h₁, h₂, rfl⟩,
        by rwa [← List.append_assoc]⟩

theorem forM {β : Type} {f : β → Attempt PUnit} {refs : β → List Reference} {bs : List β}
    (hf : ∀ b ∈ bs, u.Enacts (f b) (refs b)) : u.Enacts (bs.forM f) (bs.flatMap refs) := by
  induction bs with
  | nil => exact .pure
  | cons b bs ih =>
    rw [List.flatMap_cons]
    exact bind (hf b List.mem_cons_self) (ih fun b hb => hf b (List.mem_cons_of_mem _ hb))

/-- A text is resolved in the scope of a declaration, and the type is attached. -/
theorem attached {op : Handle → Declaring Unit} (hroot : u.signature.Rootless)
    (hty : u.ownType? r.decl = some ty)
    (hop : ∀ l v w b t, u.Presents l v → v.Grows w → w.Reads b t →
      Hinges w (op b) (w.signature.Permits ⟨r.decl, r.slot, t⟩) fun _ x =>
        w.signature.Permits ⟨r.decl, r.slot, t⟩ ∧ w.Attaches x ⟨r.decl, r.slot, t⟩)
    (context : Context) :
    u.Enacts (Attempt.within context do
      let b ← TypeExpr.resolveText (some ty) r.text
      Attempt.ofDeclaring (op b)) [r] := by
  intro l v hv hone
  have hc := hv.valid.consistent
  obtain ⟨d, -, hr⟩ := hv.valid.reads_of_ownType? ((hv.ownType? r.decl).trans hty)
  have hscope : ∀ x ∈ some ty, v.contains x := fun _ h => Option.some.inj h ▸ hr.1
  have hres := TypeExpr.resolveText_gives hv.valid hscope (.refl hc) r.text
  rw [Option.bind_some, hc.head?_of_reads hr, Ty.head?_own, hv.denoteText] at hres
  refine Hinges.within (Hinges.bind (.of_gives hres) ?_ fun b w hw => ?_) context
  · rintro ⟨as, has, -⟩
    rw [List.mapM_cons] at has
    obtain ⟨a, ha, -⟩ := Option.bind_eq_some_iff.1 has
    obtain ⟨t, ht, -⟩ := Option.map_eq_some_iff.1 ha
    exact ⟨t, ht⟩
  · obtain ⟨hw, t, ht, hgains⟩ := hw
    have hatt : [r].mapM u.attachment? = some [⟨r.decl, r.slot, t⟩] := by
      simp [attachment?, ht]
    rw [← map_key_of_mapM_eq_some hatt, ← List.map_append] at hone
    have hiff := Signature.allows_concat_iff hroot hv.allows hone
    rw [← hv.signature, ← hw.signature] at hiff
    refine (hop l v w b t hv hw hgains.reads).ofDeclaring.imp ?_ ?_
    · rintro ⟨as, has, hallows⟩
      cases hatt.symm.trans has
      exact hiff.1 hallows
    · rintro _ x ⟨hpermits, hx⟩
      exact ⟨_, hatt, hv.attach hw hgains hx (hiff.2 hpermits)⟩

end Enacts

end Universe

/-! ## The references of a declaration -/

theorem Ty.part_own {decl : DeclId} {index arity : Nat} (h : index < arity) :
    (param decl index).Part (own decl arity) := by
  rw [own, if_neg (Nat.ne_of_gt (Nat.zero_lt_of_lt h))]
  exact .arg (List.mem_map_of_mem (List.mem_range.2 h)) .refl

namespace Manifest.Decl

open Universe

variable {u : Universe} {decl : DeclId} {ty : Handle}

/-- All that a declaration refers to, in the order in which it is attached. -/
def references (d : Decl) (decl : DeclId) : List Reference :=
  d.base.toList.map (⟨decl, .base, ·⟩) ++ (d.interfaces.map (⟨decl, .interface, ·⟩) ++
    d.params.zipIdx.flatMap fun p => p.1.constraints.map (⟨decl, .bound p.2, ·⟩))

variable (hroot : u.signature.Rootless) (hty : u.ownType? decl = some ty)
include hroot hty

theorem attachConstraints_enacts (hu : u.Valid) (d : Decl) (param : Param) {index : Nat}
    {d' : Declaration} (hd : u.catalog.get? decl = some d') (hlt : index < d'.arity) :
    u.Enacts (d.attachConstraints ty param index) (param.constraints.map (⟨decl, .bound index, ·⟩)) := by
  rw [attachConstraints, List.map_eq_flatMap]
  cases hempty : param.constraints.isEmpty with
  | true =>
    rw [List.isEmpty_iff.1 hempty]
    exact .pure
  | false =>
    intro l v hv hone
    have hc := hv.valid.consistent
    have hown : v.ownType? decl = some ty := (hv.ownType? decl).trans hty
    obtain ⟨d'', hd'', hr⟩ := hv.valid.reads_of_ownType? hown
    have hlt' : index < d''.arity := by
      rcases Declaration.Alike.rel_cases (hv.speaks.alike decl) with
        ⟨hnone, -⟩ | ⟨d₁, d₂, h₁, h₂, halike⟩
      · cases hnone.symm.trans hd
      · cases h₁.symm.trans hd
        cases h₂.symm.trans hd''
        rwa [halike.arity]
    have hparam := Declaring.parameter_gives hc (hv.valid.grounded.declarationOf_eq hown hd'') hlt'
    refine Hinges.bind (.of_gives hparam.ofDeclaring) (fun _ => ⟨_, rfl⟩) fun paramType w hw => ?_
    obtain ⟨hw, t, ht, hgains⟩ := hw
    cases ht
    -- The parameter is part of the own type, so it has had its handle from the beginning.
    obtain ⟨p, hp⟩ : u.Has (.param decl index) := by
      obtain ⟨d₁, h₁, hr₁⟩ := hu.reads_of_ownType? hty
      cases h₁.symm.trans hd
      exact hu.consistent.has_of_part (Ty.part_own hlt) ⟨ty, hr₁⟩
    obtain rfl : p = paramType :=
      hw.after.reads_injective (hw.reads (hv.reads hu.consistent hp)) hgains.reads
    have hpresents := hv.grow hw hgains (hc.has_of_part (Ty.part_own hlt') ⟨ty, hr⟩)
    refine Enacts.forM (fun text _ => ?_) l w hpresents hone
    exact .attached (r := ⟨decl, .bound index, text⟩) hroot hty (fun l v w b t hv hw hb =>
      (hw.valid hv.valid).addConstraint_hinges (hw.reads (hv.reads hu.consistent hp)) hb) _

theorem attach_enacts (hu : u.Valid) (d : Decl) {d' : Declaration}
    (hd : u.catalog.get? decl = some d') (harity : d'.arity = d.params.length) :
    u.Enacts (d.attach ty) (d.references decl) := by
  have hown : ∀ {l v w}, u.Presents l v → v.Grows w → w.ownType? decl = some ty :=
    fun hv hw => (hw.ownType? decl).trans ((hv.ownType? decl).trans hty)
  refine .bind ?_ (.bind ?_ ?_)
  · cases d.base with
    | none => exact .pure
    | some base =>
      exact .attached (r := ⟨decl, .base, base⟩) hroot hty (fun l v w b t hv hw hb =>
        (hw.valid hv.valid).setBase_hinges (hown hv hw) hb) _
  · rw [List.map_eq_flatMap]
    exact .forM fun text _ => .attached (r := ⟨decl, .interface, text⟩) hroot hty
      (fun l v w b t hv hw hb => (hw.valid hv.valid).addInterface_hinges (hown hv hw) hb) _
  · refine .forM fun p hp => attachConstraints_enacts hroot hty hu d p.1 hd ?_
    rw [harity]
    exact (List.snd_lt_of_mem_zipIdx hp).trans_eq (by simp)

end Manifest.Decl

end Subtyping
