import Subtyping.Proofs.Closures
import Subtyping.Proofs.Interning
import Subtyping.Proofs.RoundTrip

/-!
# What failed work leaves behind

An operation that is refused changes nothing at all (`Declaring.Atomic`): it decides first and acts
afterwards. An expression is different, since its parts are resolved one after the other. Whether or not
it resolves, the only types that are new afterwards are applications that occur in it and that stand for
the types (`Universe.Stands`, `TypeExpr.resolve_leaves`); nothing else has changed.

So a type is written as before if every handle in it was known (`Universe.Interns.display`). In a
universe where all types are made from known types this goes for all of them, and so it does for their
supertypes (`Universe.AddsOnly.supertypes`). A type with an unknown handle in it may come to be written
differently (`Step.dangling`).
-/

namespace Subtyping

open UniverseM

/-! ## Operations -/

namespace Declaring

variable {α β : Type}

/-- Work that changes nothing if it is refused. -/
def Atomic (x : Declaring α) : Prop :=
  ∀ c e, (x.run c).1 = .error e → (x.run c).2 = c

theorem Atomic.lift (x : UniverseM α) : Atomic (liftM x : Declaring α) :=
  fun _ _ h => by cases h

/-- What a check refuses is not begun. -/
theorem Atomic.require_bind (f : Universe → Except Universe.Error α) {k : α → Declaring β}
    (hk : ∀ a, Atomic (k a)) : Atomic (require f >>= k) := by
  intro c e h
  rw [run_require_bind] at h ⊢
  cases hf : f c.univ with
  | error e => rfl
  | ok a =>
    rw [hf] at h
    exact hk a c e h

theorem declare_atomic (d : Declaration) : Atomic (declare d) := by
  intro c e h
  rw [run_declare d c.univ c.journal] at h ⊢
  cases hname : c.univ.checkName d.stripped.name with
  | error e => rfl
  | ok _ =>
    rw [hname] at h
    cases h

theorem parameter_atomic (definition : Handle) (index : Nat) : Atomic (parameter definition index) :=
  .require_bind _ fun _ => .lift _

theorem parameterNamed_atomic (definition : Handle) (name : String) :
    Atomic (parameterNamed definition name) :=
  .require_bind _ fun index => parameter_atomic definition index

theorem apply_atomic (definition : Handle) (args : List Handle) : Atomic (apply definition args) :=
  .require_bind _ fun _ => .lift _

theorem setBase_atomic (declared base : Handle) : Atomic (setBase declared base) :=
  .require_bind _ fun _ => .lift _

theorem addInterface_atomic (declared interface : Handle) : Atomic (addInterface declared interface) := by
  refine .require_bind _ fun p => ?_
  obtain ⟨decl, d⟩ := p
  dsimp only
  split
  · exact .lift (pure ())
  · exact .lift _

theorem addConstraint_atomic (parameter bound : Handle) : Atomic (addConstraint parameter bound) :=
  .require_bind _ fun _ => .lift _

end Declaring

theorem UniverseM.makeGeneric_atomic (definition : Handle) (args : List Handle) (c : Chronicle)
    (h : (makeGeneric definition args c).1 = none) : (makeGeneric definition args c).2 = c := by
  rw [makeGeneric, run_view_bind] at h ⊢
  split_ifs at h ⊢
  · have happly : ((Declaring.apply definition args).run c).1.toOption = none := h
    cases hrun : ((Declaring.apply definition args).run c).1 with
    | error e => exact Declaring.apply_atomic definition args c e hrun
    | ok ty =>
      rw [hrun] at happly
      cases happly
  · rfl

/-! ## What an expression stands for -/

namespace TypeExpr

/-- An expression occurs in another, or is the other. -/
inductive Part : TypeExpr → TypeExpr → Prop where
  | refl (e : TypeExpr) : Part e e
  | arg {part e : TypeExpr} {n : String} {args : List TypeExpr} (he : e ∈ args) (h : Part part e) :
      Part part (.apply n args)

end TypeExpr

namespace Universe

variable {u v w : Universe} {scope : Option Handle} {e : TypeExpr} {ty : Handle}

/-- In `v`, which comes from `u` by interning shapes, an expression stands for a type. A name that is a
parameter of the scope in `u` stands for nothing else. -/
inductive Stands (scope : Option Handle) (u v : Universe) : TypeExpr → Handle → Prop where
  | param {n : String} {owner ty : Handle} {decl : DeclId} {d : Declaration} {index : Nat}
      (hscope : scope = some owner) (hhead : v.head? owner = some decl)
      (hd : u.catalog.get? decl = some d)
      (hindex : d.parameters.findIdx? (·.name == n) = some index)
      (hty : v.shape? ty = some (.param decl index)) : Stands scope u v (.name n) ty
  | plain {n : String} {ty : Handle} {decl : DeclId}
      (hscope : (scope.bind u.head?).bind (u.paramNamed? n) = none)
      (hname : u.catalog.named? n = some decl) (hty : v.shape? ty = some (.plain decl)) :
      Stands scope u v (.name n) ty
  | apply {n : String} {args : List TypeExpr} {decl : DeclId} {d : Declaration} {tys : List Handle}
      {ty : Handle} (hname : u.catalog.named? n = some decl) (hd : u.catalog.get? decl = some d)
      (hgeneric : d.isGeneric) (harity : d.arity = args.length) (hlength : tys.length = args.length)
      (hargs : ∀ p ∈ args.zip tys, Stands scope u v p.1 p.2)
      (hty : v.shape? ty = some (.applied decl tys)) : Stands scope u v (.apply n args) ty
  | slots {n : String} {arity : Nat} {ty : Handle} {decl : DeclId} {d : Declaration}
      (hname : u.catalog.named? n = some decl) (hd : u.catalog.get? decl = some d)
      (hgeneric : d.isGeneric) (harity : d.arity = arity) (hty : u.ownType? decl = some ty) :
      Stands scope u v (.slots n arity) ty

theorem Interns.head? (h : v.Interns w) {decl : DeclId} (hhead : v.head? ty = some decl) :
    w.head? ty = some decl := by
  obtain ⟨shape, hs, hhead⟩ := Option.bind_eq_some_iff.1 hhead
  rw [Universe.head?, h.shape? hs, Option.bind_some, hhead]

/-- What is no parameter of the scope later on was none before. -/
theorem Interns.paramNamed?_eq_none (h : u.Interns v) {n : String}
    (hnone : (scope.bind v.head?).bind (v.paramNamed? n) = none) :
    (scope.bind u.head?).bind (u.paramNamed? n) = none := by
  have hsame : u.paramNamed? n = v.paramNamed? n := by
    funext owner
    rw [paramNamed?, paramNamed?, h.catalog]
  cases scope with
  | none => rfl
  | some owner =>
    rw [Option.bind_some] at hnone ⊢
    cases hhead : u.head? owner with
    | none => rfl
    | some decl =>
      rw [h.head? hhead, Option.bind_some] at hnone
      rw [Option.bind_some, hsame, hnone]

theorem isGeneric_of_arity {d : Declaration} (h : d.arity ≠ 0) : d.isGeneric = true := by
  have hne : d.parameters ≠ [] := List.ne_nil_of_length_pos (Nat.pos_of_ne_zero h)
  simpa [Declaration.isGeneric] using hne

theorem Stands.interns (hs : Stands scope u v e ty) (h : v.Interns w) : Stands scope u w e ty := by
  induction hs with
  | param hscope hhead hd hindex hty => exact .param hscope (h.head? hhead) hd hindex (h.shape? hty)
  | plain hscope hname hty => exact .plain hscope hname (h.shape? hty)
  | apply hname hd hgeneric harity hlength _ hty ih =>
    exact .apply hname hd hgeneric harity hlength ih (h.shape? hty)
  | slots hname hd hgeneric harity hty => exact .slots hname hd hgeneric harity hty

/-! ## Types that are added -/

/-- All that was done is to intern applications out of `P`. -/
structure AddsOnly (scope : Option Handle) (u : Universe) (P : TypeExpr → Prop) (c c' : Chronicle) :
    Prop where
  journal : c'.journal = c.journal
  closures : c'.univ.closures = c.univ.closures
  interns : c.univ.Interns c'.univ
  grows : c.univ.Grounded → c.univ.dropClosures.Grows c'.univ.dropClosures
  new : ∀ ty, c'.univ.contains ty → c.univ.contains ty = false →
    ∃ n args, P (.apply n args) ∧ u.Stands scope c'.univ (.apply n args) ty

namespace AddsOnly

variable {P Q : TypeExpr → Prop} {c c' c'' : Chronicle}

theorem refl (c : Chronicle) : AddsOnly scope u P c c :=
  ⟨rfl, rfl, .refl _, Grounded.grows, fun ty h h' => absurd (h.symm.trans h') (by simp)⟩

theorem trans (h : AddsOnly scope u P c c') (h' : AddsOnly scope u P c' c'') : AddsOnly scope u P c c'' where
  journal := h'.journal.trans h.journal
  closures := h'.closures.trans h.closures
  interns := h.interns.trans h'.interns
  grows hc := (h.grows hc).trans (h'.grows ((h.grows hc).valid hc))
  new ty hty hnew := by
    cases hmid : c'.univ.contains ty with
    | false => exact h'.new ty hty hmid
    | true =>
      obtain ⟨n, args, hp, hs⟩ := h.new ty hmid hnew
      exact ⟨n, args, hp, hs.interns h'.interns⟩

theorem mono (h : AddsOnly scope u P c c') (hPQ : ∀ e, P e → Q e) : AddsOnly scope u Q c c' where
  journal := h.journal
  closures := h.closures
  interns := h.interns
  grows := h.grows
  new ty hty hnew := by
    obtain ⟨n, args, hp, hs⟩ := h.new ty hty hnew
    exact ⟨n, args, hPQ _ hp, hs⟩

end AddsOnly

/-! ## Names -/

variable {c : Chronicle} {n : String}

/-- A name that is looked up is that of a declaration, and gives its own type. -/
theorem Tabulated.of_lookup (hu : u.Tabulated) (h : u.lookup n = some ty) :
    ∃ decl d, u.catalog.named? n = some decl ∧ u.catalog.get? decl = some d ∧
      u.ownType? decl = some ty ∧ u.IsOwn decl d.arity ty := by
  obtain ⟨decl, hname, hown⟩ := Option.bind_eq_some_iff.1 h
  obtain ⟨d, hd, -⟩ := (hu.names n decl).1 hname
  obtain ⟨ty', hown', hty⟩ := hu.own hd
  obtain rfl : ty = ty' := Option.some.inj (hown.symm.trans hown')
  exact ⟨decl, d, hname, hd, hown, hty⟩

theorem IsOwn.head? {decl : DeclId} {arity : Nat} (h : u.IsOwn decl arity ty) :
    u.head? ty = some decl := by
  unfold IsOwn at h
  split_ifs at h
  · rw [Universe.head?, h]
    rfl
  · obtain ⟨args, hs, -⟩ := h
    rw [Universe.head?, hs]
    rfl

/-- The parameters of a declaration are types. -/
theorem Tabulated.exists_param (hu : u.Tabulated) {decl : DeclId} {d : Declaration} {index : Nat}
    (hd : u.catalog.get? decl = some d) (hlt : index < d.arity) :
    ∃ ty, u.shape? ty = some (.param decl index) := by
  obtain ⟨own, -, hown⟩ := hu.own hd
  rw [IsOwn, if_neg (by omega)] at hown
  obtain ⟨args, -, hargs⟩ := hown
  have hmem : some (Shape.param decl index) ∈ args.map u.shape? := by
    rw [hargs, List.mem_map]
    exact ⟨index, List.mem_range.2 hlt, rfl⟩
  obtain ⟨ty, -, hty⟩ := List.mem_map.1 hmem
  exact ⟨ty, hty⟩

/-- A shape that is there is not interned again. -/
theorem run_intern_of_shape? (hc : c.univ.table.Indexed) {shape : Shape}
    (h : c.univ.shape? ty = some shape) : intern shape c = (ty, c) := by
  have hindex := (hc shape ty).2 h
  have hintern : c.univ.table.intern shape = (ty, c.univ.table) := by
    rw [TypeTable.intern, hindex]
  show ((c.univ.table.intern shape).1, (⟨{ c.univ with table := (c.univ.table.intern shape).2 },
    c.journal⟩ : Chronicle)) = _
  rw [hintern]

/-- An application that is allowed. -/
theorem of_applicationShape_eq_ok {definition : Handle} {tys : List Handle} {shape : Shape}
    (h : u.applicationShape definition tys = .ok shape) :
    ∃ decl d, u.head? definition = some decl ∧ u.catalog.get? decl = some d ∧ d.isGeneric ∧
      d.arity = tys.length ∧ shape = .applied decl tys := by
  obtain ⟨⟨decl, d⟩, hdecl, h⟩ := exists_of_bind_eq_ok h
  obtain ⟨hhead, hd⟩ := declarationOf_eq_ok hdecl
  dsimp only at h
  split at h
  · rename_i hgeneric
    split at h
    · rename_i harity
      split at h
      · cases h
      · cases h
        exact ⟨decl, d, hhead, hd, hgeneric, harity, rfl⟩
    · cases h
  · cases h

/-- Interning gives at most the one type that it is asked for. -/
theorem eq_of_contains_intern {shape : Shape} (h : (intern shape c).2.univ.contains ty)
    (hnew : c.univ.contains ty = false) (hc : c.univ.table.Indexed) : ty = (intern shape c).1 := by
  obtain ⟨s, hs⟩ := exists_shape?_of_contains h
  have hindexed : (intern shape c).2.univ.table.Indexed := hc.intern shape
  rcases TypeTable.eq_or_of_shape?_intern hs with hold | rfl
  · have : c.univ.shape? ty = some s := hold
    rw [contains, this] at hnew
    cases hnew
  · exact Option.some.inj (((hindexed s ty).2 hs).symm.trans
      ((hindexed s _).2 (hc.shape?_intern s)))

end Universe

namespace TypeExpr

open Universe Attempt

variable {u : Universe} {scope : Option Handle} {c c' : Chronicle} {n : String}

/-- Looking for a parameter in scope changes nothing, and finds the parameter with the name if the scope
is headed by a declaration that has one. -/
theorem parameterIn?_cases (hc : c.univ.Tabulated) (scope : Option Handle) (n : String) :
    (∃ owner decl d index ty, scope = some owner ∧ c.univ.head? owner = some decl ∧
      c.univ.catalog.get? decl = some d ∧ d.parameters.findIdx? (·.name == n) = some index ∧
      c.univ.shape? ty = some (.param decl index) ∧ (parameterIn? scope n).run c = (.ok (some ty), c)) ∨
    (scope.bind c.univ.head?).bind (c.univ.paramNamed? n) = none ∧
      (parameterIn? scope n).run c = (.ok none, c) := by
  cases hparam : (scope.bind c.univ.head?).bind (c.univ.paramNamed? n) with
  | none => exact .inr ⟨rfl, parameterIn?_yields_none hparam⟩
  | some t =>
    obtain ⟨decl, hscope, hnamed⟩ := Option.bind_eq_some_iff.1 hparam
    obtain ⟨owner, rfl, hhead⟩ := Option.bind_eq_some_iff.1 hscope
    obtain ⟨d, hd, hnamed⟩ := Option.bind_eq_some_iff.1 hnamed
    obtain ⟨index, hindex, -⟩ := Option.map_eq_some_iff.1 hnamed
    have hlt : index < d.arity := (List.findIdx?_eq_some_iff_findIdx_eq.1 hindex).1
    obtain ⟨ty, hty⟩ := hc.exists_param hd hlt
    refine .inl ⟨owner, decl, d, index, ty, rfl, hhead, hd, hindex, hty, ?_⟩
    have hdecl : c.univ.declarationOf owner = .ok (decl, d) := by
      have := c.univ.toOption_declarationOf owner
      rw [hhead, Option.bind_some, hd, Option.map_some] at this
      exact eq_ok_of_toOption this
    have hfound : c.univ.parameterIndex owner n = .ok index := by
      refine eq_ok_of_toOption ?_
      rw [toOption_parameterIndex, hdecl]
      exact hindex
    rw [run_parameterIn?, Declaring.parameterNamed, Declaring.run_require_bind, hfound]
    dsimp only
    rw [Declaring.parameter, Declaring.run_require_bind, parameterShape_eq_ok hdecl hlt]
    dsimp only
    have hintern := run_intern_of_shape? hc.index hty
    show (Except.ok (some (intern (.param decl index) c).1), (intern (.param decl index) c).2) = _
    rw [hintern]

/-- Work that begins at `c` adds applications out of `P` only, and gives what has `Q`. -/
def Leaves (scope : Option Handle) (u : Universe) (P : TypeExpr → Prop) (c : Chronicle) {α : Type}
    (x : Attempt α) (Q : α → Universe → Prop) : Prop :=
  AddsOnly scope u P c (x.run c).2 ∧ ∀ a, (x.run c).1 = .ok a → Q a (x.run c).2.univ

namespace Leaves

variable {α β : Type} {P P' : TypeExpr → Prop} {Q : α → Universe → Prop} {R : β → Universe → Prop}

theorem pure {a : α} (h : Q a c.univ) : Leaves scope u P c (pure a : Attempt α) Q :=
  ⟨.refl c, fun _ ha => by cases ha; exact h⟩

theorem fail_bind (cause : Cause) (k : β → Attempt α) : Leaves scope u P c (Attempt.fail cause >>= k) Q :=
  ⟨.refl c, fun _ ha => by cases ha⟩

/-- Work that is known to give something and to change nothing. -/
theorem of_run {x : Attempt α} {f : α → Attempt β} {a : α} (hx : x.run c = (.ok a, c))
    (h : Leaves scope u P c (f a) R) : Leaves scope u P c (x >>= f) R := by
  rw [Leaves, run_except_bind, hx]
  exact h

theorem bind {x : Attempt α} {f : α → Attempt β} (hx : Leaves scope u P c x Q)
    (hf : ∀ a c', AddsOnly scope u P c c' → Q a c'.univ → Leaves scope u P c' (f a) R) :
    Leaves scope u P c (x >>= f) R := by
  obtain ⟨hadds, hq⟩ := hx
  rw [Leaves, run_except_bind]
  cases hrun : (x.run c).1 with
  | error e => exact ⟨hadds, fun _ ha => by cases ha⟩
  | ok a =>
    obtain ⟨hadds', hr⟩ := hf a _ hadds (hq a hrun)
    exact ⟨hadds.trans hadds', hr⟩

theorem view {f : Universe → β} {k : β → Attempt α} (h : Leaves scope u P c (k (f c.univ)) Q) :
    Leaves scope u P c (Attempt.view f >>= k) Q :=
  h

/-- The universe may refuse to intern an application. -/
theorem apply {n : String} {args : List TypeExpr} {definition : Handle} {tys : List Handle}
    {decl : DeclId} {d : Declaration} (hu : u.Interns c.univ) (hc : c.univ.Tabulated)
    (hname : u.catalog.named? n = some decl) (hd : u.catalog.get? decl = some d)
    (hhead : c.univ.head? definition = some decl) (hlength : tys.length = args.length)
    (hargs : ∀ p ∈ args.zip tys, u.Stands scope c.univ p.1 p.2) :
    Leaves scope u (Part · (.apply n args)) c
      (within (.applying n) (ofDeclaring (Declaring.apply definition tys)))
      fun ty v => u.Stands scope v (.apply n args) ty := by
  have hrun : (within (.applying n) (ofDeclaring (Declaring.apply definition tys))).run c =
      ((((Declaring.apply definition tys).run c).1.mapError fun error =>
        ({ cause := .refused error } : Failure)).mapError (Failure.within (.applying n)),
        ((Declaring.apply definition tys).run c).2) := rfl
  have hgrows : c.univ.Grounded → c.univ.dropClosures.Grows
      ((Declaring.apply definition tys).run c).2.univ.dropClosures :=
    fun hg => (apply_expands (A := fun _ => False) hg definition tys).grows
  rw [Leaves, hrun]
  rw [Declaring.apply, Declaring.run_require_bind] at hgrows ⊢
  cases hshape : c.univ.applicationShape definition tys with
  | error e => exact ⟨.refl c, fun _ hty => by cases hty⟩
  | ok shape =>
    rw [hshape] at hgrows
    obtain ⟨decl', d', hhead', hd', hgeneric, harity, rfl⟩ := of_applicationShape_eq_ok hshape
    obtain rfl : decl' = decl := Option.some.inj (hhead'.symm.trans hhead)
    rw [hu.catalog] at hd'
    obtain rfl : d' = d := Option.some.inj (hd'.symm.trans hd)
    have hinterns : c.univ.Interns (intern (.applied decl' tys) c).2.univ :=
      (Simple.intern _).interns c
    have hstands : u.Stands scope (intern (.applied decl' tys) c).2.univ (.apply n args)
        (intern (.applied decl' tys) c).1 :=
      .apply hname hd hgeneric (harity.trans hlength) hlength
        (fun p hp => (hargs p hp).interns hinterns) (hc.index.shape?_intern _)
    refine ⟨⟨rfl, rfl, hinterns, hgrows, fun ty hty hnew => ?_⟩, fun ty hty => ?_⟩
    · rw [eq_of_contains_intern hty hnew hc.index]
      exact ⟨n, args, .refl _, hstands⟩
    · obtain rfl := Except.ok.inj hty
      exact hstands

theorem mono {x : Attempt α} (hx : Leaves scope u P c x Q) (hP : ∀ e, P e → P' e) :
    Leaves scope u P' c x Q :=
  ⟨hx.1.mono hP, hx.2⟩

end Leaves

theorem run_view_bind {α β : Type} (f : Universe → α) (k : α → Attempt β) (c : Chronicle) :
    (Attempt.view f >>= k).run c = (k (f c.univ)).run c :=
  rfl

theorem run_declared (n : String) (c : Chronicle) :
    (declared n).run c = ((c.univ.lookup n).elim (.error { cause := .unknownName n }) .ok, c) := by
  rw [declared, run_view_bind]
  cases c.univ.lookup n with
  | none => rfl
  | some ty => rfl

/-- A name that is declared gives the own type of its declaration. -/
theorem declared_leaves (hu : u.Interns c.univ) (hc : c.univ.Tabulated) (n : String)
    (P : TypeExpr → Prop) :
    Leaves scope u P c (declared n) fun ty v => ∃ decl d, u.catalog.named? n = some decl ∧
      u.catalog.get? decl = some d ∧ u.ownType? decl = some ty ∧ v.IsOwn decl d.arity ty := by
  rw [Leaves, run_declared]
  refine ⟨.refl c, fun ty hty => ?_⟩
  cases hlookup : c.univ.lookup n with
  | none =>
    rw [hlookup] at hty
    cases hty
  | some ty' =>
    rw [hlookup] at hty
    obtain rfl : ty' = ty := Except.ok.inj hty
    obtain ⟨decl, d, hname, hd, hown, hty⟩ := hc.of_lookup hlookup
    rw [hu.catalog] at hname hd
    rw [Universe.ownType?, hu.ownTypes] at hown
    exact ⟨decl, d, hname, hd, hown, hty⟩

theorem resolveName_leaves (hu : u.Interns c.univ) (hc : c.univ.Tabulated) (n : String)
    (P : TypeExpr → Prop) :
    Leaves scope u P c (resolveName scope n) fun ty v => u.Stands scope v (.name n) ty := by
  rcases parameterIn?_cases hc scope n with
    ⟨owner, decl, d, index, ty, hscope, hhead, hd, hindex, hty, hrun⟩ | ⟨hnone, hrun⟩
  · rw [hu.catalog] at hd
    exact .of_run hrun (.pure (.param hscope hhead hd hindex hty))
  · refine .of_run hrun (.bind (declared_leaves hu hc n P) fun ty c' hadds hty => ?_)
    obtain ⟨decl, d, hname, hd, hown, hty⟩ := hty
    refine .view ?_
    rw [IsOwn] at hty
    split_ifs at hty with harity
    · have hplain : c'.univ.isGeneric ty = false := by rw [isGeneric, hty]
      rw [hplain]
      exact .pure (.plain (hu.paramNamed?_eq_none hnone) hname hty)
    · obtain ⟨args, hs, -⟩ := hty
      have hgeneric : c'.univ.isGeneric ty = true := by rw [isGeneric, hs]
      rw [hgeneric]
      exact .view (.fail_bind _ _)

theorem resolveSlots_leaves (hu : u.Interns c.univ) (hc : c.univ.Tabulated) (n : String) (arity : Nat)
    (P : TypeExpr → Prop) :
    Leaves scope u P c (resolveSlots n arity) fun ty v => u.Stands scope v (.slots n arity) ty := by
  refine .bind (declared_leaves hu hc n P) fun ty c' hadds hty => ?_
  obtain ⟨decl, d, hname, hd, hown, hty⟩ := hty
  refine .view (.view ?_)
  rw [IsOwn] at hty
  split_ifs at hty with harity
  · have hplain : c'.univ.isGeneric ty = false := by rw [isGeneric, hty]
    rw [hplain]
    exact .fail_bind _ _
  · obtain ⟨args, hs, hargs⟩ := hty
    have hgeneric : c'.univ.isGeneric ty = true := by rw [isGeneric, hs]
    have hlength : (c'.univ.arguments ty).length = d.arity := by
      have := congrArg List.length hargs
      rw [List.length_map, List.length_map, List.length_range] at this
      rw [arguments, hs, this]
    rw [hgeneric, hlength, Bool.true_and]
    cases heq : d.arity == arity with
    | false => exact .fail_bind _ _
    | true => exact .pure (.slots hname hd (isGeneric_of_arity harity) (eq_of_beq heq) hown)

/-! ## Expressions -/

mutual

/-- Resolving an expression interns applications that occur in it, and does nothing else. If it
succeeds, the expression stands for the type that is given. -/
theorem resolve_leaves : ∀ (e : TypeExpr) {c : Chronicle}, u.Interns c.univ → c.univ.Tabulated →
    Leaves scope u (Part · e) c (resolve scope e) fun ty v => u.Stands scope v e ty
  | .name n, c, hu, hc => by
    rw [resolve]
    exact resolveName_leaves hu hc n _
  | .slots n arity, c, hu, hc => by
    rw [resolve]
    exact resolveSlots_leaves hu hc n arity _
  | .apply n args, c, hu, hc => by
    rw [resolve]
    refine .bind (declared_leaves hu hc n _) fun definition c' hadds hdefinition => ?_
    obtain ⟨decl, d, hname, hd, -, hown⟩ := hdefinition
    have hc' := hc.moves (.intern hadds.interns)
    refine .bind ((resolveAll_leaves args (hu.trans hadds.interns) hc').mono ?_)
      fun tys c'' hadds' htys => ?_
    · rintro part ⟨e, he, hpart⟩
      exact .arg he hpart
    · exact .apply ((hu.trans hadds.interns).trans hadds'.interns) (hc'.moves (.intern hadds'.interns))
        hname hd (hadds'.interns.head? hown.head?) htys.1 htys.2

theorem resolveAll_leaves : ∀ (es : List TypeExpr) {c : Chronicle}, u.Interns c.univ →
    c.univ.Tabulated → Leaves scope u (fun part => ∃ e ∈ es, Part part e) c (resolveAll scope es)
      fun tys v => tys.length = es.length ∧ ∀ p ∈ es.zip tys, u.Stands scope v p.1 p.2
  | [], c, _, _ => by
    rw [resolveAll]
    exact .pure ⟨rfl, by simp⟩
  | e :: es, c, hu, hc => by
    rw [resolveAll]
    refine .bind ((resolve_leaves e hu hc).mono fun part h => ⟨e, List.mem_cons_self, h⟩)
      fun ty c' hadds hty => ?_
    have hrest := resolveAll_leaves es (hu.trans hadds.interns) (hc.moves (.intern hadds.interns))
    refine .bind (hrest.mono fun part h => ?_) fun tys c'' hadds' htys => .pure ⟨?_, ?_⟩
    · obtain ⟨e', he', hpart⟩ := h
      exact ⟨e', List.mem_cons_of_mem e he', hpart⟩
    · rw [List.length_cons, List.length_cons, htys.1]
    · rw [List.zip_cons_cons, List.forall_mem_cons]
      exact ⟨hty.interns hadds'.interns, htys.2⟩

end

end TypeExpr

/-! ## What is written and what is inherited -/

namespace Universe

variable {u v : Universe} {ty : Handle}

/-- A handle is a type or stands in it. -/
inductive Occurs (u : Universe) : Handle → Handle → Prop where
  | refl (ty : Handle) : Occurs u ty ty
  | arg {ty arg part : Handle} {decl : DeclId} {args : List Handle}
      (hs : u.shape? ty = some (.applied decl args)) (harg : arg ∈ args) (h : Occurs u part arg) :
      Occurs u part ty

/-- In a grounded universe, what stands in a known type is known. -/
theorem Grounded.contains_of_occurs (hu : u.Grounded) {part : Handle} (h : u.Occurs part ty)
    (hty : u.contains ty) : u.contains part := by
  induction h with
  | refl => exact hty
  | arg hs harg _ ih => exact ih (hu.consistent.table.older hs _ harg).2

theorem Interns.displayWithin (h : u.Interns v) (hknown : ∀ part, u.Occurs part ty → u.contains part)
    (levels : Nat) (outermost : Bool) :
    v.displayWithin levels outermost ty = u.displayWithin levels outermost ty := by
  induction levels generalizing ty outermost with
  | zero => rfl
  | succ levels ih =>
    obtain ⟨shape, hs⟩ := exists_shape?_of_contains (hknown ty (.refl ty))
    have hparam : v.parameter? = u.parameter? := by
      funext owner index
      rw [parameter?, parameter?, h.catalog]
    have hhead : v.headName ty = u.headName ty := by
      funext decl
      rw [headName, headName, h.catalog]
    have hown : v.ownType? = u.ownType? := by
      funext decl
      rw [ownType?, ownType?, h.ownTypes]
    rw [Universe.displayWithin, Universe.displayWithin, h.shape? hs, hs, hparam, hhead, hown]
    cases shape with
    | plain decl => rfl
    | param owner index => rfl
    | applied decl args =>
      have hargs : args.map (v.displayWithin levels false) = args.map (u.displayWithin levels false) :=
        List.map_congr_left fun arg harg => ih (fun part hp => hknown part (.arg hs harg hp)) false
      dsimp only
      rw [hargs]

/-- A type in which every handle is known is written as before. -/
theorem Interns.display (h : u.Interns v) (hknown : ∀ part, u.Occurs part ty → u.contains part) :
    v.display ty = u.display ty :=
  h.displayWithin hknown displayLevels true

end Universe

namespace UniverseM

open Universe

variable {u : Universe} {ty : Handle}

/-- The types that work gives, as trees. -/
def trees (x : UniverseM (List Handle)) (c : Chronicle) : List Ty :=
  (x c).1.map (x c).2.univ.typeAt

theorem Blind.trees_eq {x : UniverseM (List Handle)} (hx : Blind x) {ts : List Ty}
    (he : Ensures u.dropClosures x fun r v => List.Forall₂ v.Reads r ts) (j : Journal) :
    trees x ⟨u, j⟩ = ts :=
  (forall₂_reads_iff.1 (hx.expands (A := fun _ => False) he j).2).2

theorem forall₂_toList_of_rel {α β : Type} {R : α → β → Prop} {a : Option α} {b : Option β}
    (h : Option.Rel R a b) : List.Forall₂ R a.toList b.toList := by
  cases h with
  | none => exact .nil
  | some h => exact .cons h .nil

section Known

variable (hu : u.Grounded) (hty : u.contains ty) (j : Journal)
include hu hty

theorem trees_baseType :
    trees (Option.toList <$> baseType ty) ⟨u, j⟩ = (u.signature.baseOf (u.typeAt ty)).toList := by
  have hblind : Blind (Option.toList <$> baseType ty) :=
    Blind.structural.bind (Blind.structural.baseType ty) fun _ => Blind.structural.pure _
  exact hblind.trees_eq ((baseType_ensures hu.consistent (reads_typeAt hty)).map fun r v _ hr =>
    forall₂_toList_of_rel hr) j

theorem trees_declaredInterfaces :
    trees (declaredInterfaces ty) ⟨u, j⟩ = u.signature.declaredBy (u.typeAt ty) :=
  (Blind.structural.declaredInterfaces ty).trees_eq
    (declaredInterfaces_ensures hu.consistent (reads_typeAt hty)) j

theorem trees_baseChain : trees (baseChain ty) ⟨u, j⟩ = u.signature.chain (u.typeAt ty) :=
  (Blind.structural.baseChain ty).trees_eq (baseChain_ensures hu.consistent (reads_typeAt hty)) j

theorem trees_interfaces_of_none (hnone : u.closures[ty]? = none) :
    trees (interfaces ty) ⟨u, j⟩ = u.signature.closureOf (u.typeAt ty) := by
  have hcompute := (Blind.structural.computeInterfaces ty).trees_eq
    (computeInterfaces_ensures hu.consistent (reads_typeAt hty)) j
  rw [trees, interfaces, run_view_bind, hnone]
  exact hcompute

end Known

theorem trees_interfaces_of_some {closure : List Handle} (h : u.closures[ty]? = some closure)
    (j : Journal) : trees (interfaces ty) ⟨u, j⟩ = closure.map u.typeAt := by
  rw [trees, interfaces, run_view_bind, h]
  rfl

end UniverseM

namespace Universe.AddsOnly

variable {u : Universe} {scope : Option Handle} {P : TypeExpr → Prop} {c c' : Chronicle} {ty : Handle}

/-- In a grounded universe a known type has the same supertypes as before, whatever was asked about
them. -/
theorem supertypes (h : AddsOnly scope u P c c') (hc : c.univ.Grounded) (hty : c.univ.contains ty)
    (hrecord : ∀ closure, c.univ.closures[ty]? = some closure → ∀ a ∈ closure, c.univ.contains a)
    (j : Journal) :
    trees (Option.toList <$> baseType ty) ⟨c'.univ, j⟩ = trees (Option.toList <$> baseType ty) ⟨c.univ, j⟩ ∧
      trees (baseChain ty) ⟨c'.univ, j⟩ = trees (baseChain ty) ⟨c.univ, j⟩ ∧
      trees (declaredInterfaces ty) ⟨c'.univ, j⟩ = trees (declaredInterfaces ty) ⟨c.univ, j⟩ ∧
      trees (interfaces ty) ⟨c'.univ, j⟩ = trees (interfaces ty) ⟨c.univ, j⟩ := by
  have hgrows := h.grows hc
  have hc' : c'.univ.Grounded := hgrows.valid hc
  have hty' : c'.univ.contains ty := hgrows.contains hty
  have hsignature : c'.univ.signature = c.univ.signature := hgrows.signature
  have htypeAt : ∀ {ty}, c.univ.contains ty → c'.univ.typeAt ty = c.univ.typeAt ty := hgrows.typeAt
  refine ⟨?_, ?_, ?_, ?_⟩
  · rw [trees_baseType hc' hty', trees_baseType hc hty, hsignature, htypeAt hty]
  · rw [trees_baseChain hc' hty', trees_baseChain hc hty, hsignature, htypeAt hty]
  · rw [trees_declaredInterfaces hc' hty', trees_declaredInterfaces hc hty, hsignature, htypeAt hty]
  · cases hclosure : c.univ.closures[ty]? with
    | none =>
      rw [trees_interfaces_of_none hc' hty' j (by rw [h.closures, hclosure]),
        trees_interfaces_of_none hc hty j hclosure, hsignature, htypeAt hty]
    | some closure =>
      rw [trees_interfaces_of_some (by rw [h.closures, hclosure]), trees_interfaces_of_some hclosure]
      exact List.map_congr_left fun a ha => htypeAt (hrecord closure hclosure a ha)

end Universe.AddsOnly

namespace Step

open Universe

/-- However a universe was used: an operation that is refused changes nothing. Resolving an expression,
whether or not it fails, interns applications that occur in it and does nothing else, so that a type in
which every handle is known is written as before. As long as the arguments put for parameters were
known, that goes for all types, and none has other supertypes than before. -/
theorem failed_work_changes_nothing (steps : List Step) :
    let c := runAll steps .fresh
    ((∀ d, Declaring.Atomic (Declaring.declare d)) ∧
      (∀ ty index, Declaring.Atomic (Declaring.parameter ty index)) ∧
      (∀ ty name, Declaring.Atomic (Declaring.parameterNamed ty name)) ∧
      (∀ ty args, Declaring.Atomic (Declaring.apply ty args)) ∧
      (∀ ty base, Declaring.Atomic (Declaring.setBase ty base)) ∧
      (∀ ty interface, Declaring.Atomic (Declaring.addInterface ty interface)) ∧
      (∀ ty bound, Declaring.Atomic (Declaring.addConstraint ty bound)) ∧
      ∀ ty args c, (UniverseM.makeGeneric ty args c).1 = none → (UniverseM.makeGeneric ty args c).2 = c) ∧
    ∀ scope e, let r := ((TypeExpr.resolve scope e).run c).2
      (r.journal = c.journal ∧ r.univ.catalog = c.univ.catalog ∧ r.univ.ownTypes = c.univ.ownTypes ∧
        r.univ.closures = c.univ.closures ∧ (∀ name, r.univ.lookup name = c.univ.lookup name) ∧
        (∀ ty shape, c.univ.shape? ty = some shape → r.univ.shape? ty = some shape) ∧
        (∀ ty, r.univ.contains ty → c.univ.contains ty = false → ∃ n args,
          TypeExpr.Part (.apply n args) e ∧ c.univ.Stands scope r.univ (.apply n args) ty) ∧
        ∀ ty, (∀ part, c.univ.Occurs part ty → c.univ.contains part) →
          r.univ.display ty = c.univ.display ty) ∧
      (allAllowed steps .fresh → ∀ ty, c.univ.contains ty →
        r.univ.display ty = c.univ.display ty ∧ ∀ j,
          trees (Option.toList <$> baseType ty) ⟨r.univ, j⟩ =
            trees (Option.toList <$> baseType ty) ⟨c.univ, j⟩ ∧
          trees (baseChain ty) ⟨r.univ, j⟩ = trees (baseChain ty) ⟨c.univ, j⟩ ∧
          trees (declaredInterfaces ty) ⟨r.univ, j⟩ = trees (declaredInterfaces ty) ⟨c.univ, j⟩ ∧
          trees (interfaces ty) ⟨r.univ, j⟩ = trees (interfaces ty) ⟨c.univ, j⟩) := by
  intro c
  refine ⟨⟨Declaring.declare_atomic, Declaring.parameter_atomic, Declaring.parameterNamed_atomic,
    Declaring.apply_atomic, Declaring.setBase_atomic, Declaring.addInterface_atomic,
    Declaring.addConstraint_atomic, makeGeneric_atomic⟩, fun scope e => ?_⟩
  intro r
  have h : AddsOnly scope c.univ (TypeExpr.Part · e) c r :=
    (TypeExpr.resolve_leaves e (.refl c.univ) (tabulated_runAll steps)).1
  have hlookup : ∀ name, r.univ.lookup name = c.univ.lookup name := by
    intro name
    have hown : r.univ.ownType? = c.univ.ownType? := by
      funext decl
      rw [ownType?, ownType?, h.interns.ownTypes]
    rw [lookup, lookup, h.interns.catalog, hown]
  refine ⟨⟨h.journal, h.interns.catalog, h.interns.ownTypes, h.closures, hlookup,
    fun ty shape => h.interns.shape?, h.new, fun ty => h.interns.display⟩, fun hallowed ty hty => ?_⟩
  have hc : c.univ.Grounded := grounded_runAll steps hallowed
  refine ⟨h.interns.display fun part hpart => hc.contains_of_occurs hpart hty,
    h.supertypes hc hty fun closure hclosure a ha => ?_⟩
  rcases records_runAll steps hallowed hclosure with hrecords | ⟨rfl, -⟩
  · exact (forall₂_reads_iff.1 hrecords.2).1 a ha
  · cases ha

/-- A class `Box<T>`. -/
def boxed : List Step :=
  [.operation (.declare (.bare .classKind "Box" ["T"]))]

/-- An expression whose last argument is not declared. -/
def undeclaredLast : TypeExpr :=
  .apply "Box" [.apply "Box" [.slots "Box" 1], .name "Nope"]

/-- `Box<Box<T>>` stays behind, and `Box<>` is written as before. -/
theorem failed_work_changes_nothing_boxed :
    let r := (TypeExpr.resolve none undeclaredLast).run (runAll boxed .fresh)
    r.1 = .error { cause := .unknownName "Nope" } ∧ allAllowed boxed .fresh ∧
      (∃ n args, TypeExpr.Part (.apply n args) undeclaredLast ∧
        (runAll boxed .fresh).univ.Stands none r.2.univ (.apply n args) ⟨3⟩) ∧
      r.2.univ.display ⟨2⟩ = (runAll boxed .fresh).univ.display ⟨2⟩ := by
  have hfails : ((TypeExpr.resolve none undeclaredLast).run (runAll boxed .fresh)).1 =
      .error { cause := .unknownName "Nope" } := by cbv
  have hallowed : allAllowed boxed .fresh := by cbv
  obtain ⟨-, hresolve⟩ := failed_work_changes_nothing boxed
  obtain ⟨⟨-, -, -, -, -, -, hnew, -⟩, hkept⟩ := hresolve none undeclaredLast
  exact ⟨hfails, hallowed, hnew ⟨3⟩ (by cbv) (by cbv), (hkept hallowed ⟨2⟩ (by cbv)).1⟩

/-- The handle after the next is put for the parameter of `Box<T>` before it is known. -/
def dangling : List Step :=
  boxed ++ [.operation (.instantiate ⟨2⟩ ⟨1⟩ [⟨4⟩])]

/-- A type with an unknown handle in it is written differently once an expression that fails has made
the handle known. -/
theorem not_forall_display_kept :
    ¬ ∀ steps scope e f, ((TypeExpr.resolve scope e).run (runAll steps .fresh)).1 = .error f →
      ∀ ty, (runAll steps .fresh).univ.contains ty →
        ((TypeExpr.resolve scope e).run (runAll steps .fresh)).2.univ.display ty =
          (runAll steps .fresh).univ.display ty := by
  intro h
  have hbefore : (runAll dangling .fresh).univ.display ⟨3⟩ = "Box<#4>" := by cbv
  have hafter : ((TypeExpr.resolve none undeclaredLast).run (runAll dangling .fresh)).2.univ.display ⟨3⟩ =
      "Box<Box<Box<T>>>" := by cbv
  have hsame := h dangling none undeclaredLast { cause := .unknownName "Nope" } (by cbv) ⟨3⟩ (by cbv)
  rw [hbefore, hafter] at hsame
  exact absurd hsame (by decide)

end Step

end Subtyping
