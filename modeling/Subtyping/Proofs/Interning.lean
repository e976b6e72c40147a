import Subtyping.Proofs.Steps

/-!
# Interning

Types and declarations are numbered from 1 on without gaps, and each is found by what it is: a shape has
one handle, a name one declaration, and a declaration has its own type (`Universe.Tabulated`). Whatever
is there stays as it is (`Universe.Retains`), except that operations may give a declaration supertypes
and bounds.

All of this holds whatever handles operations and queries are given, known or not, and whether they are
refused or not (`Step.interning_bijective`). All that simple work does, and so all that a query does, is
to intern shapes (`UniverseM.Simple.interns`, `Search.check_interns`); the other steps enter a declaration
or revise one in place (`Universe.Moves`).
-/

namespace Subtyping

open Relation UniverseM

/-! ## Tables that come from each other by interning -/

namespace TypeTable

variable {t t' : TypeTable}

/-- The second table comes from the first by interning shapes. -/
def Interns : TypeTable → TypeTable → Prop :=
  ReflTransGen fun t t' => ∃ shape, t' = (t.intern shape).2

theorem Interns.extends (h : t.Interns t') : t.Extends t' := by
  induction h with
  | refl => exact .refl t
  | tail _ hstep ih =>
    obtain ⟨shape, rfl⟩ := hstep
    exact ih.trans (extends_intern _ shape)

theorem Interns.indexed (h : t.Interns t') (ht : t.Indexed) : t'.Indexed := by
  induction h with
  | refl => exact ht
  | tail _ hstep ih =>
    obtain ⟨shape, rfl⟩ := hstep
    exact ih.intern shape

/-- The numbers of types go from 1 to the number of types. -/
theorem isSome_shape?_iff (t : TypeTable) (ty : Handle) :
    (t.shape? ty).isSome ↔ 1 ≤ ty.num ∧ ty.num ≤ t.size := by
  obtain ⟨num⟩ := ty
  cases num with
  | zero => simp [shape?]
  | succ n => simp [shape?, size]

end TypeTable

namespace Universe

variable {u v w : Universe}

/-- The second universe is the first one with more types and other closures on record. -/
structure Interns (u v : Universe) : Prop where
  catalog : v.catalog = u.catalog
  ownTypes : v.ownTypes = u.ownTypes
  table : u.table.Interns v.table

theorem Interns.refl (u : Universe) : u.Interns u :=
  ⟨rfl, rfl, .refl⟩

theorem Interns.trans (h : u.Interns v) (h' : v.Interns w) : u.Interns w :=
  ⟨h'.catalog.trans h.catalog, h'.ownTypes.trans h.ownTypes, ReflTransGen.trans h.table h'.table⟩

theorem Interns.shape? (h : u.Interns v) {ty : Handle} {shape : Shape} (hs : u.shape? ty = some shape) :
    v.shape? ty = some shape :=
  h.table.extends ty shape hs

end Universe

theorem UniverseM.Simple.interns {α : Type} {x : UniverseM α} (hx : Simple x) (c : Chronicle) :
    c.univ.Interns (x c).2.univ := by
  induction hx generalizing c with
  | pure => exact .refl _
  | bind _ _ ih ihf => exact (ih c).trans (ihf _ _)
  | view => exact .refl _
  | note => exact .refl _
  | intern shape => exact ⟨rfl, rfl, .single ⟨shape, rfl⟩⟩
  | record => exact ⟨rfl, rfl, .refl⟩

/-! ## Queries -/

namespace Search

theorem congruence_interns :
    Congruence SearchM SearchM fun x _ => ∀ s : Search, s.univ.Interns (x s).2.univ where
  pure _ s := .refl s.univ
  bind hx hf s := (hx s).trans (hf _ _)
  lift hx s := hx.interns s.chronicle
  refuse s := .refl s.univ

theorem substituteBy_interns {evaluate : Pair → SearchM (Option Handle)}
    (he : ∀ pair (s : Search), s.univ.Interns (evaluate pair s).2.univ) (source target : Handle)
    (s : Search) :
    s.univ.Interns (substituteBy evaluate source target s).2.univ := by
  unfold substituteBy
  split_ifs
  · exact .refl _
  · rw [run_bind]
    cases (lookup ⟨source, target⟩ s).1 with
    | some verdict => exact .refl s.univ
    | none => exact he ⟨source, target⟩ (lookup ⟨source, target⟩ s).2

theorem resolve_interns {nested : Nested SearchM}
    (h : ∀ source target (s : Search), s.univ.Interns (nested source target s).2.univ)
    (source target : Handle) (s : Search) : s.univ.Interns (resolve nested source target s).2.univ :=
  congruence_interns.resolve_of_forall h source target s

/-- A question interns shapes and does nothing else to the universe, by induction on the depth that is
left. -/
theorem evaluate_interns (levels : Nat) (pair : Pair) (s : Search) :
    s.univ.Interns (evaluate levels pair s).2.univ := by
  induction levels generalizing pair s with
  | zero =>
    rcases he : s.guard.enter pair with ⟨admission, g⟩
    by_cases hentered : admission = .entered
    · subst hentered
      rw [evaluate_zero_of_entered he]
      exact .refl _
    · rw [univ_evaluate_of_ne_entered 0 he hentered]
      exact .refl _
  | succ levels ih =>
    rcases he : s.guard.enter pair with ⟨admission, g⟩
    by_cases hentered : admission = .entered
    · subst hentered
      rw [evaluate_of_entered levels he, run_bind, univ_settle]
      exact resolve_interns (substituteBy_interns ih) pair.source pair.target
        { s with guard := g, stack := s.stack.push pair, lowest := none }
    · rw [univ_evaluate_of_ne_entered (levels + 1) he hentered]
      exact .refl _

theorem check_interns (source target : Option Handle) (s : Search) :
    s.univ.Interns (check source target s).2.univ := by
  cases source with
  | none => exact .refl _
  | some source =>
    cases target with
    | none => exact .refl _
    | some target =>
      rw [check_some]
      split_ifs
      · exact .refl _
      · rw [run_bind]
        cases (lookup ⟨source, target⟩ s).1 with
        | some verdict => exact .refl s.univ
        | none => exact evaluate_interns _ _ (lookup ⟨source, target⟩ s).2

end Search

theorem Step.query_interns (verdicts : Verdicts) (limits : Limits) (source target : Option Handle)
    (c : Chronicle) : c.univ.Interns (run (.query verdicts limits source target) c).2.univ := by
  obtain ⟨j, e, -, -, hrun⟩ := Solver.run_query source target ⟨c, verdicts⟩
  show c.univ.Interns (Solver.query limits source target ⟨c, verdicts⟩).2.univ
  rw [hrun]
  exact Search.check_interns source target (.start ⟨⟨c.univ, j⟩, verdicts⟩ limits)

/-- A step that changes no declaration interns shapes, whatever handles it is given. -/
theorem Step.interns_run {s : Step} (hs : s.declares = false) (c : Chronicle) :
    c.univ.Interns (s.run c).2.univ := by
  cases s with
  | operation op => exact (Operation.simple_run hs).interns c
  | makeGeneric definition args => exact (makeGeneric_simple definition args).discard.interns c
  | query verdicts limits source target => exact query_interns verdicts limits source target c

/-! ## Declarations -/

/-- The second declaration has the kind, the name and the names of parameters of the first. -/
structure Declaration.Alike (d d' : Declaration) : Prop where
  kind : d'.kind = d.kind
  name : d'.name = d.name
  parameters : d'.parameters.map (·.name) = d.parameters.map (·.name)

namespace Declaration.Alike

theorem refl (d : Declaration) : d.Alike d :=
  ⟨rfl, rfl, rfl⟩

theorem symm {d d' : Declaration} (h : d.Alike d') : d'.Alike d :=
  ⟨h.kind.symm, h.name.symm, h.parameters.symm⟩

theorem trans {d d' d'' : Declaration} (h : d.Alike d') (h' : d'.Alike d'') : d.Alike d'' :=
  ⟨h'.kind.trans h.kind, h'.name.trans h.name, h'.parameters.trans h.parameters⟩

theorem rel_refl (x : Option Declaration) : Option.Rel Alike x x := by
  cases x with
  | none => exact .none
  | some d => exact .some (.refl d)

theorem rel_trans {x y z : Option Declaration} (h : Option.Rel Alike x y) (h' : Option.Rel Alike y z) :
    Option.Rel Alike x z := by
  cases h with
  | none => exact h'
  | some h =>
    cases h' with
    | some h' => exact .some (h.trans h')

/-- A declaration has a counterpart or is missing on both sides. -/
theorem rel_cases {x y : Option Declaration} (h : Option.Rel Alike x y) :
    x = none ∧ y = none ∨ ∃ d d', x = some d ∧ y = some d' ∧ d.Alike d' := by
  cases h with
  | none => exact Or.inl ⟨rfl, rfl⟩
  | some h => exact Or.inr ⟨_, _, rfl, rfl, h⟩

theorem arity {d d' : Declaration} (h : d.Alike d') : d'.arity = d.arity := by
  have hlen := congrArg List.length h.parameters
  rwa [List.length_map, List.length_map] at hlen

theorem withInterface (d : Declaration) (interface : Handle) : d.Alike (d.withInterface interface) := by
  unfold Declaration.withInterface
  split_ifs
  · exact .refl d
  · exact ⟨rfl, rfl, rfl⟩

theorem withConstraint (d : Declaration) (index : Nat) (bound : Handle) :
    d.Alike (d.withConstraint index bound) := by
  refine ⟨rfl, rfl, List.ext_getElem? fun i => ?_⟩
  simp only [Declaration.withConstraint, List.getElem?_map, List.getElem?_modify, Option.map_eq_map,
    Option.map_map]
  refine congrArg (Option.map · d.parameters[i]?) (funext fun p => ?_)
  simp only [Function.comp_apply]
  split_ifs <;> rfl

end Declaration.Alike

namespace Catalog

variable {c : Catalog} {d : Declaration}

/-- The names on record are those of the declarations, each under its own. -/
def Named (c : Catalog) : Prop :=
  ∀ name decl, c.named? name = some decl ↔ ∃ d, c.get? decl = some d ∧ d.name = name

theorem names_modify (c : Catalog) (decl : DeclId) (f : Declaration → Declaration) :
    (c.modify decl f).names = c.names := by
  unfold modify
  split <;> rfl

theorem Named.modify (h : c.Named) (decl : DeclId) {f : Declaration → Declaration}
    (hf : ∀ d, (f d).name = d.name) : (c.modify decl f).Named := by
  intro name x
  rw [named?, names_modify, get?_modify]
  refine (h name x).trans ?_
  split_ifs
  · simp [hf]
  · rfl

/-- A new declaration takes a name that is free. -/
theorem Named.add (h : c.Named) (hfree : c.named? d.name = none) : (c.add d).2.Named := by
  intro name x
  show (c.names.insert d.name (c.add d).1)[name]? = some x ↔ _
  rw [Std.HashMap.getElem?_insert, get?_add]
  have hnew : c.get? (c.add d).1 = none := get?_add_self c d
  by_cases hname : d.name = name
  · subst hname
    have hnone : ¬ ∃ d', c.get? x = some d' ∧ d'.name = d.name := by
      rw [← h, hfree]
      exact nofun
    simp only [beq_self_eq_true, if_true, Option.some.injEq]
    constructor
    · rintro rfl
      exact ⟨d, if_pos rfl, rfl⟩
    · rintro ⟨d', hd', hn⟩
      split_ifs at hd' with hx
      · exact hx.symm
      · exact absurd ⟨d', hd', hn⟩ hnone
  · rw [if_neg (by simpa using hname)]
    refine (h name x).trans ⟨?_, ?_⟩
    · rintro ⟨d', hd', hn⟩
      have hne : x ≠ (c.add d).1 := by
        rintro rfl
        cases hnew.symm.trans hd'
      exact ⟨d', by rw [if_neg hne, hd'], hn⟩
    · rintro ⟨d', hd', hn⟩
      split_ifs at hd' with hx
      · cases hd'
        exact absurd hn hname
      · exact ⟨d', hd', hn⟩

/-- The numbers of declarations go from 1 to the number of declarations. -/
theorem isSome_get?_iff (c : Catalog) (decl : DeclId) :
    (c.get? decl).isSome ↔ 1 ≤ decl.num ∧ decl.num ≤ c.size := by
  obtain ⟨num⟩ := decl
  cases num with
  | zero => simp [get?]
  | succ n => simp [get?, size]

end Catalog

/-! ## Steps -/

namespace Universe

variable {u v : Universe} {d : Declaration} {decl : DeclId} {ty : Handle}

/-- The own type of a declaration: its plain type, or its application to its own parameters in order. -/
def IsOwn (u : Universe) (decl : DeclId) (arity : Nat) (ty : Handle) : Prop :=
  if arity = 0 then u.shape? ty = some (.plain decl)
  else ∃ args, u.shape? ty = some (.applied decl args) ∧
    args.map u.shape? = (List.range arity).map fun index => some (.param decl index)

/-- Handles that are known keep their shapes. -/
theorem map_shape?_of_extends (hext : u.table.Extends v.table) {β : Type} {g : β → Shape} {l : List β}
    {args : List Handle} (h : args.map u.shape? = l.map fun b => some (g b)) :
    args.map v.shape? = l.map fun b => some (g b) := by
  refine h ▸ List.map_congr_left fun a ha => ?_
  have hmem : u.shape? a ∈ l.map fun b => some (g b) := h ▸ List.mem_map_of_mem ha
  obtain ⟨b, -, hb⟩ := List.mem_map.1 hmem
  rw [← hb]
  exact hext _ _ hb.symm

/-- So an own type stays one. -/
theorem IsOwn.extend {arity : Nat} (h : u.IsOwn decl arity ty) (hext : u.table.Extends v.table) :
    v.IsOwn decl arity ty := by
  unfold IsOwn at h ⊢
  split_ifs at h ⊢ with harity
  · exact hext _ _ h
  · obtain ⟨args, hs, hargs⟩ := h
    exact ⟨args, hext _ _ hs, map_shape?_of_extends hext hargs⟩

/-- All that one step can do to a universe, whatever handles it is given. -/
inductive Moves (u : Universe) : Universe → Prop where
  | intern {v : Universe} (h : u.Interns v) : Moves u v
  | declare {d : Declaration} {v : Universe} {ty : Handle} (hfree : u.catalog.named? d.name = none)
      (hv : (u.enrolled d).Interns v) (hty : v.IsOwn (u.catalog.add d).1 d.arity ty) :
      Moves u (v.addOwnType ty)
  | revise (decl : DeclId) {f : Declaration → Declaration} (hf : ∀ d : Declaration, d.Alike (f d)) :
      Moves u (u.revised decl f)

end Universe

namespace UniverseM

variable {c : Chronicle} {decl : DeclId}

/-- Parameters that are interned have the shapes that they should have. -/
theorem mapM_param_interns (hc : c.univ.table.Indexed) (decl : DeclId) (l : List Nat) :
    let r := (l.mapM fun index => intern (.param decl index)) c
    c.univ.Interns r.2.univ ∧
      r.1.map r.2.univ.shape? = l.map fun index => some (.param decl index) := by
  induction l generalizing c with
  | nil => exact ⟨.refl _, rfl⟩
  | cons index l ih =>
    intro r
    have hfirst := (Simple.intern (.param decl index)).interns c
    obtain ⟨hrest, hshapes⟩ := @ih (intern (.param decl index) c).2 (hfirst.table.indexed hc)
    have hrun : r = ((intern (.param decl index) c).1 ::
        ((l.mapM fun index => intern (.param decl index)) (intern (.param decl index) c).2).1,
        ((l.mapM fun index => intern (.param decl index)) (intern (.param decl index) c).2).2) := by
      show ((index :: l).mapM fun index => intern (.param decl index)) c = _
      rw [List.mapM_cons]
      rfl
    rw [hrun]
    refine ⟨hfirst.trans hrest, ?_⟩
    rw [List.map_cons, List.map_cons, hshapes]
    exact congrArg (· :: _) (hrest.shape? (hc.shape?_intern (.param decl index)))

/-- The own type of a new declaration. -/
theorem ownTypeFor_interns (hc : c.univ.table.Indexed) (decl : DeclId) (arity : Nat) :
    let r := ownTypeFor decl arity c
    c.univ.Interns r.2.univ ∧ r.2.univ.IsOwn decl arity r.1 := by
  intro r
  by_cases harity : arity = 0
  · have hrun : r = intern (.plain decl) c := by
      show ownTypeFor decl arity c = _
      rw [ownTypeFor, if_pos harity]
    rw [hrun, Universe.IsOwn, if_pos harity]
    exact ⟨(Simple.intern (.plain decl)).interns c, hc.shape?_intern (.plain decl)⟩
  · obtain ⟨hparams, hshapes⟩ := mapM_param_interns hc decl (List.range arity)
    set args := ((List.range arity).mapM fun index => intern (.param decl index)) c with hargs
    have hrun : r = intern (.applied decl args.1) args.2 := by
      show ownTypeFor decl arity c = _
      rw [ownTypeFor, if_neg harity]
      rfl
    have hlast := (Simple.intern (.applied decl args.1)).interns args.2
    rw [hrun, Universe.IsOwn, if_neg harity]
    refine ⟨hparams.trans hlast, args.1, ?_, ?_⟩
    · exact (hparams.table.indexed hc).shape?_intern (.applied decl args.1)
    · exact Universe.map_shape?_of_extends hlast.table.extends hshapes

end UniverseM

namespace Universe

variable {u v : Universe}

theorem moves_declare (hu : u.table.Indexed) (d : Declaration) (j : Journal) :
    u.Moves ((Declaring.declare d).run ⟨u, j⟩).2.univ := by
  rw [Declaring.run_declare]
  cases hname : u.checkName d.stripped.name with
  | error e => exact .intern (.refl u)
  | ok _ =>
    obtain ⟨hv, hty⟩ := @ownTypeFor_interns ⟨u.enrolled d.stripped,
      j.note (.registered (u.catalog.add d.stripped).1 d.stripped.kind d.stripped.name)⟩ hu
      (u.catalog.add d.stripped).1 d.arity
    exact .declare (checkName_eq_ok_iff.1 hname) hv (d.arity_stripped ▸ hty)

/-- All that a step can do. -/
theorem moves_run (hu : u.table.Indexed) (s : Step) (j : Journal) : u.Moves (s.run ⟨u, j⟩).2.univ := by
  cases hs : s.declares with
  | false => exact .intern (Step.interns_run hs ⟨u, j⟩)
  | true =>
    cases s with
    | makeGeneric definition args => cases hs
    | query verdicts limits source target => cases hs
    | operation op =>
      cases op with
      | declare d => exact moves_declare hu d j
      | setBase declared base =>
        show u.Moves ((Declaring.setBase declared base).run ⟨u, j⟩).2.univ
        rw [Declaring.run_setBase]
        dsimp only
        cases u.checkBase declared base with
        | error e => exact .intern (.refl u)
        | ok decl => exact .revise decl fun _ => ⟨rfl, rfl, rfl⟩
      | addInterface declared interface =>
        show u.Moves ((Declaring.addInterface declared interface).run ⟨u, j⟩).2.univ
        rw [Declaring.run_addInterface]
        dsimp only
        cases u.checkInterface declared interface with
        | error e => exact .intern (.refl u)
        | ok p =>
          obtain ⟨decl, d⟩ := p
          dsimp only
          split_ifs
          · exact .intern (.refl u)
          · exact .revise decl fun d => .withInterface d interface
      | addConstraint param bound =>
        show u.Moves ((Declaring.addConstraint param bound).run ⟨u, j⟩).2.univ
        rw [Declaring.run_addConstraint]
        dsimp only
        cases u.checkConstraint param bound with
        | error e => exact .intern (.refl u)
        | ok p => exact .revise p.1 fun d => .withConstraint d p.2 bound
      | _ => cases hs

/-! ## What steps keep -/

/-- All that is there in the first universe is the same in the second, up to supertypes and bounds of
declarations. -/
structure Retains (u v : Universe) : Prop where
  shape? : ∀ {ty shape}, u.shape? ty = some shape → v.shape? ty = some shape
  ownType? : ∀ {decl ty}, u.ownType? decl = some ty → v.ownType? decl = some ty
  alike : ∀ {decl d}, u.catalog.get? decl = some d →
    ∃ d', v.catalog.get? decl = some d' ∧ d.Alike d'

/-- Each type and each declaration is found by what it is, and declarations have their own types. -/
structure Tabulated (u : Universe) : Prop where
  index : u.table.Indexed
  names : u.catalog.Named
  aligned : u.ownTypes.size = u.catalog.size
  own : ∀ {decl d}, u.catalog.get? decl = some d →
    ∃ ty, u.ownType? decl = some ty ∧ u.IsOwn decl d.arity ty

/-- No step changes what is there. -/
theorem Moves.retains (h : u.Moves v) : u.Retains v := by
  cases h with
  | intern h =>
    refine ⟨h.shape?, fun {decl ty} hown => ?_, fun {decl d} hd => ⟨d, ?_, .refl d⟩⟩
    · rwa [Universe.ownType?, h.ownTypes]
    · rwa [h.catalog]
  | @declare d w ty hfree hw hty =>
    refine ⟨hw.shape?, fun {decl own} hown => ?_, fun {decl d'} hd => ⟨d', ?_, .refl d'⟩⟩
    · refine ownType?_addOwnType_of_eq_some ?_ ty
      rwa [Universe.ownType?, hw.ownTypes]
    · show w.catalog.get? decl = some d'
      rw [hw.catalog]
      exact get?_enrolled hd
  | @revise decl f hf =>
    refine ⟨id, id, fun {x d} hd => ?_⟩
    rw [get?_revised, hd]
    split_ifs
    · exact ⟨f d, rfl, hf d⟩
    · exact ⟨d, rfl, .refl d⟩

/-- Every step keeps things tabulated. -/
theorem Tabulated.moves (hu : u.Tabulated) (h : u.Moves v) : v.Tabulated := by
  have hretains := h.retains
  cases h with
  | intern h =>
    refine ⟨h.table.indexed hu.index, h.catalog ▸ hu.names, ?_, fun {decl d} hd => ?_⟩
    · rw [h.ownTypes, h.catalog, hu.aligned]
    · rw [h.catalog] at hd
      obtain ⟨ty, hown, hty⟩ := hu.own hd
      exact ⟨ty, hretains.ownType? hown, hty.extend h.table.extends⟩
  | @declare d w ty hfree hw hty =>
    have hsize : w.ownTypes.size = u.catalog.size := by rw [hw.ownTypes, ← hu.aligned, enrolled]
    refine ⟨hw.table.indexed hu.index, ?_, ?_, fun {decl d'} hd => ?_⟩
    · show w.catalog.Named
      rw [hw.catalog]
      exact hu.names.add hfree
    · show (w.ownTypes.push ty).size = w.catalog.size
      rw [Array.size_push, hsize, hw.catalog]
      exact (u.catalog.size_add d).symm
    · change w.catalog.get? decl = some d' at hd
      rw [hw.catalog, enrolled, Catalog.get?_add] at hd
      split_ifs at hd with he
      · cases hd
        refine ⟨ty, ?_, he ▸ hty.extend (.refl _)⟩
        rw [he, show (u.catalog.add d).1 = ⟨w.ownTypes.size + 1⟩ by rw [hsize]; rfl]
        exact w.ownType?_addOwnType_self ty
      · obtain ⟨own, hown, hty'⟩ := hu.own hd
        exact ⟨own, hretains.ownType? hown, hty'.extend hw.table.extends⟩
  | @revise decl f hf =>
    refine ⟨hu.index, hu.names.modify decl fun d => (hf d).name, ?_, fun {x d} hd => ?_⟩
    · exact hu.aligned.trans (u.catalog.size_modify decl f).symm
    · obtain ⟨d₀, hd₀, hd'⟩ := of_get?_revised hd
      obtain ⟨ty, hown, hty⟩ := hu.own hd₀
      have harity : d.arity = d₀.arity := by
        rcases hd' with rfl | ⟨-, rfl⟩
        · rfl
        · exact (hf d₀).arity
      exact ⟨ty, hown, harity ▸ hty⟩

theorem tabulated_empty : Tabulated {} := by
  have hget : ∀ decl, ({} : Universe).catalog.get? decl = none := Catalog.get?_empty
  refine ⟨TypeTable.WellFormed.empty.index_iff, fun name decl => ?_, rfl, fun hd => ?_⟩
  · simp [hget, Catalog.named?]
  · simp [hget] at hd

theorem Built.tabulated (h : u.Built) : u.Tabulated := by
  induction h with
  | empty => exact tabulated_empty
  | @step u op _ _ j ih => exact ih.moves (moves_run ih.index (.operation op) j)

/-- The own type of a declaration is what its name is looked up as. -/
theorem Tabulated.lookup (hu : u.Tabulated) {decl : DeclId} {d : Declaration}
    (hd : u.catalog.get? decl = some d) : u.lookup d.name = u.ownType? decl := by
  rw [Universe.lookup, (hu.names d.name decl).2 ⟨d, hd, rfl⟩, Option.bind_some]

/-- Handles of known types are equal if and only if their shapes are. -/
theorem Tabulated.eq_iff_shape?_eq (hu : u.Tabulated) {ty ty' : Handle} (h : u.contains ty) :
    ty = ty' ↔ u.shape? ty = u.shape? ty' := by
  refine ⟨congrArg u.shape?, fun heq => ?_⟩
  obtain ⟨shape, hs⟩ := exists_shape?_of_contains h
  exact Option.some.inj (((hu.index _ _).2 hs).symm.trans ((hu.index _ _).2 (heq.symm.trans hs)))

end Universe

namespace Step

/-- Whatever steps are taken, with whatever handles. -/
theorem tabulated_runAll (steps : List Step) : (runAll steps .fresh).univ.Tabulated := by
  induction steps using List.reverseRecOn with
  | nil => exact Universe.tabulated_empty
  | append_singleton steps s ih =>
    rw [runAll_concat]
    exact ih.moves (Universe.moves_run ih.index s (runAll steps .fresh).journal)

/-- After any steps, the numbers of types are those from 1 to the number of types, and each belongs to
one shape; the numbers of declarations are those from 1 to their number, each belongs to one name, and
the name is looked up as the own type of the declaration. The next step, whether it is refused or not,
changes nothing of this for what is there, and unless it is one that changes declarations, no
declaration at all. -/
theorem interning_bijective (steps : List Step) :
    let u := (runAll steps .fresh).univ
    ((∀ ty, u.contains ty ↔ 1 ≤ ty.num ∧ ty.num ≤ u.typeCount) ∧
      (∀ ty shape, u.table.index[shape]? = some ty ↔ u.shape? ty = some shape) ∧
      ∀ ty ty', u.contains ty → u.contains ty' → (ty = ty' ↔ u.shape? ty = u.shape? ty')) ∧
    ((∀ decl, (u.catalog.get? decl).isSome ↔ 1 ≤ decl.num ∧ decl.num ≤ u.catalog.size) ∧
      (∀ name decl, u.catalog.named? name = some decl ↔
        ∃ d, u.catalog.get? decl = some d ∧ d.name = name) ∧
      ∀ decl d, u.catalog.get? decl = some d →
        ∃ ty, u.lookup d.name = some ty ∧ u.ownType? decl = some ty ∧ u.IsOwn decl d.arity ty) ∧
    ∀ s : Step, let v := (s.run (runAll steps .fresh)).2.univ
      u.Retains v ∧ (s.declares = false → v.catalog = u.catalog) := by
  intro u
  have hu : u.Tabulated := tabulated_runAll steps
  refine ⟨⟨u.table.isSome_shape?_iff, fun ty shape => hu.index shape ty, fun ty ty' h _ =>
    hu.eq_iff_shape?_eq h⟩, ⟨u.catalog.isSome_get?_iff, hu.names, fun decl d hd => ?_⟩, fun s => ⟨?_, ?_⟩⟩
  · obtain ⟨ty, hown, hty⟩ := hu.own hd
    exact ⟨ty, (hu.lookup hd).trans hown, hown, hty⟩
  · exact (Universe.moves_run hu.index s (runAll steps .fresh).journal).retains
  · exact fun hs => (interns_run hs (runAll steps .fresh)).catalog

end Step

end Subtyping
