import Subtyping.Proofs.Constraints
import Subtyping.Proofs.Scopes

/-!
# Matches of open definitions

Let `D<x₁, …, xₙ>` be a type without parameters or one of its interfaces, and let each argument be natively
assignable to the bounds of its parameter with the arguments put for the parameters. Then the type can
stand for the open definition `D<>`, provided that no bound of `D` is itself a parameter. The bounds are
checked with the parameters left open, so the argument is coinductive: a type stands for every tree over
the parameters of `D` that it is natively assignable to once the arguments are put in
(`Signature.Matches`, `Signature.MeetsBounds.sub_of_matches`).

If a bound of `D` is a parameter, then no type without parameters can stand for `D<>` at all, since only
a parameter can stand for a parameter (`Signature.Scoped.not_sub_own`). This is so even if the bound holds
with the arguments put in (`Solver.Served.not_forall_open_match_complete`).
-/

namespace Subtyping

/-- Arguments put for all parameters of their owner. -/
theorem Ty.map_fill_params {decl : DeclId} {xs : List Ty} {n levels : Nat} (h : xs.length = n) :
    ((List.range n).map (.param decl)).map (fill decl xs levels) = xs := by
  refine List.ext_getElem (by simp [h]) fun i hi hi' => ?_
  simp [fill, List.getElem?_eq_getElem hi']

namespace Signature

variable {S : Signature} {arity : DeclId → Nat} {decl : DeclId} {xs : List Ty} {a b : Ty}

theorem mem_chainFrom_self (steps : Nat) (t : Ty) : t ∈ S.chainFrom (steps + 1) t := by
  rw [chainFrom]
  split
  · exact List.mem_cons_self
  · exact List.mem_cons_self

theorem mem_chain_self (t : Ty) : t ∈ S.chain t :=
  mem_chainFrom_self _ t

theorem isAssignable_self (t : Ty) : S.isAssignable t t := by
  simp [isAssignable]

theorem mem_chain_of_isAssignable (hkind : S.isBaseKind b) (h : S.isAssignable a b) :
    b ∈ S.chain a := by
  have hor : a = b ∨ b ∈ S.chain a := by
    rw [isBaseKind] at hkind
    rw [isAssignable] at h
    cases hk : S.kindOf? b with
    | none => simp [hk] at hkind
    | some kind =>
      cases kind with
      | interfaceKind => simp [hk] at hkind
      | classKind => simpa [hk] using h
      | structKind => simpa [hk] using h
  rcases hor with rfl | hmem
  · exact mem_chain_self a
  · exact hmem

theorem mem_closureOf_of_isAssignable (hkind : S.isInterface b) (h : S.isAssignable a b) :
    b ∈ a :: S.closureOf a := by
  have hkind' : S.kindOf? b = some .interfaceKind := by simpa [isInterface] using hkind
  simp only [isAssignable, hkind', Bool.or_eq_true, beq_iff_eq, List.contains_iff_mem] at h
  exact List.mem_cons.2 (h.imp_left Eq.symm)

/-! ## Bounds that are no parameters -/

/-- The source is the target, or natively assignable to it, once arguments are put for the parameters
of a declaration. -/
def Matches (S : Signature) (arity : DeclId → Nat) (decl : DeclId) (xs : List Ty) (a b : Ty) : Prop :=
  b.isGeneric ∧ b.Formed S arity (· = decl) ∧
    ((∃ levels, a = b.fill decl xs levels) ∨ S.isAssignable a (b.instantiate decl xs))

/-- Arguments that meet the bounds of the parameters they stand for, where these are put in. -/
structure MeetsBounds (S : Signature) (arity : DeclId → Nat) (decl : DeclId) (xs : List Ty) :
    Prop where
  length : xs.length = arity decl
  isParam : ∀ {index bound}, bound ∈ S.bounds decl index → bound.isParam = false
  assignable : ∀ {index x}, xs[index]? = some x → ∀ bound ∈ S.bounds decl index,
    S.isAssignable x (bound.instantiate decl xs)

theorem accepts_of_formed (hb : b.Formed S arity (· = decl)) (hparam : b.isParam = false)
    (h : (∃ levels, a = b.fill decl xs levels) ∨ S.isAssignable a (b.instantiate decl xs)) :
    S.Accepts (S.Matches arity decl xs) a b := by
  cases hb with
  | plain =>
    rcases h with ⟨levels, rfl⟩ | h
    · left
      cases levels <;> rfl
    · exact Or.inr (Or.inl h)
  | applied hkind hlen hargs => exact Or.inr (Or.inr ⟨rfl, .applied hkind hlen hargs, h⟩)
  | param => cases hparam

namespace MeetsBounds

variable (hS : S.Scoped arity) (hxs : S.MeetsBounds arity decl xs)
include hS hxs

/-- What is put for an argument of the target meets it. -/
theorem meets_fill (hb : b.Formed S arity (· = decl)) (levels : Nat) :
    S.Meets (S.Matches arity decl xs) (b.fill decl xs levels) b := by
  cases hb with
  | plain h => exact accepts_of_formed (.plain h) rfl (Or.inl ⟨levels, rfl⟩)
  | applied hkind hlen hargs =>
    exact accepts_of_formed (.applied hkind hlen hargs) rfl (Or.inl ⟨levels, rfl⟩)
  | @param owner index howner hindex =>
    subst howner
    have hi : index < xs.length := hxs.length ▸ hindex
    have hx := List.getElem?_eq_getElem hi
    rw [Ty.fill, if_pos rfl, hx]
    intro bound hbound
    -- the bound is open here; a match is all that is left of it with the arguments put in
    exact accepts_of_formed (hS.bounds hbound) (hxs.isParam hbound)
      (Or.inr (hxs.assignable hx bound hbound))

theorem suits_fill {e : DeclId} {ts : List Ty} (hts : ∀ t ∈ ts, t.Formed S arity (· = decl))
    (levels : Nat) :
    S.Suits (S.Matches arity decl xs) e ts ((Ty.applied e ts).fill decl xs (levels + 1)) := by
  refine ⟨by simp [Ty.fill, Ty.isBuiltFrom], ?_⟩
  rw [Ty.fill, Ty.args, List.forall₂_map_left_iff, List.forall₂_same]
  exact fun t ht => hxs.meets_fill hS (hts t ht) levels

/-- One step: a match follows from matches of the arguments. -/
theorem follows_of_matches (h : S.Matches arity decl xs a b) :
    S.Follows (S.Matches arity decl xs) a b := by
  obtain ⟨hgeneric, hformed, h⟩ := h
  cases hformed with
  | plain => cases hgeneric
  | param => cases hgeneric
  | @applied e ts hkind hlen hts =>
    -- the source itself, or the supertype it is assignable to, is the target with arguments put in
    obtain rfl | ⟨levels, hassign⟩ : a = .applied e ts ∨
        ∃ levels, S.isAssignable a ((Ty.applied e ts).fill decl xs (levels + 1)) := by
      rcases h with ⟨_ | levels, rfl⟩ | h
      · exact Or.inl rfl
      · exact Or.inr ⟨levels, isAssignable_self _⟩
      · exact Or.inr ⟨_, h⟩
    · exact .refl _
    · obtain ⟨kind, hk⟩ := Option.isSome_iff_exists.1 hkind
      have hkindOf : ∀ t, S.kindOf? (.applied e t) = some kind := fun _ => hk
      have hbuilt := (hxs.suits_fill hS (e := e) hts levels).1
      cases kind with
      | interfaceKind =>
        exact .interface (by simp [isInterface, hkindOf])
          (mem_closureOf_of_isAssignable (by simp [isInterface, Ty.fill, hkindOf]) hassign)
          (hxs.suits_fill hS hts levels)
      | classKind =>
        exact .base (by simp [isBaseKind, hkindOf])
          (mem_chain_of_isAssignable (by simp [isBaseKind, Ty.fill, hkindOf]) hassign) hbuilt
      | structKind =>
        exact .base (by simp [isBaseKind, hkindOf])
          (mem_chain_of_isAssignable (by simp [isBaseKind, Ty.fill, hkindOf]) hassign) hbuilt

theorem sub_of_matches (h : S.Matches arity decl xs a b) : S.Sub a b :=
  ⟨S.Matches arity decl xs, fun _ _ => hxs.follows_of_matches hS, h⟩

/-- A type that is or inherits from `D<x₁, …, xₙ>` can stand for the open `D<>`. -/
theorem sub_own (hg : (Ty.own decl (arity decl)).isGeneric)
    (hi : S.isInterface (.own decl (arity decl)))
    (hmem : .applied decl xs ∈ a :: S.closureOf a) : S.Sub a (.own decl (arity decl)) := by
  have hpos : arity decl ≠ 0 := by
    intro h
    rw [h] at hg
    cases hg
  rw [Ty.own, if_neg hpos] at hi ⊢
  have hparams : ∀ t ∈ (List.range (arity decl)).map (Ty.param decl),
      t.Formed S arity (· = decl) := by
    intro t ht
    obtain ⟨index, hindex, rfl⟩ := List.mem_map.1 ht
    exact .param rfl (List.mem_range.1 hindex)
  have hsuits := hxs.suits_fill hS (e := decl) hparams 0
  rw [Ty.fill, Ty.map_fill_params hxs.length] at hsuits
  exact sub_iff_follows.2 (.interface hi hmem (hsuits.mono fun _ _ => hxs.sub_of_matches hS))

end MeetsBounds

/-! ## Bounds that are parameters -/

/-- Only a parameter can stand for a parameter. -/
theorem isParam_of_accepts (hb : b.isParam) (h : S.Accepts S.Sub a b) : a.isParam := by
  cases b with
  | plain decl => cases hb
  | applied decl args => cases hb
  | param owner index =>
    have hassign : S.isAssignable a (.param owner index) → a.isParam := by
      intro h
      obtain rfl : a = .param owner index := by simpa [isAssignable, kindOf?, Ty.head?] using h
      rfl
    rcases h with rfl | h | h
    · rfl
    · exact hassign h
    · rcases (follows_iff_of_isGeneric_eq_false rfl).1 (sub_iff_follows.1 h) with rfl | ⟨-, h⟩
      · rfl
      · exact hassign h

/-- No type without parameters can stand for an open definition one of whose bounds is a parameter. -/
theorem Scoped.not_sub_own (hS : S.Scoped arity) (ha : a.Concrete arity) {n index : Nat}
    (hi : S.isInterface (.own decl n)) (hindex : index < n) (hb : b ∈ S.bounds decl index)
    (hparam : b.isParam) : ¬ S.Sub a (.own decl n) := by
  intro h
  have hn : n ≠ 0 := by omega
  rw [Ty.own, if_neg hn] at h hi
  have hne : a ≠ .applied decl ((List.range n).map (.param decl)) := by
    rintro rfl
    exact Bool.noConfusion (ha.2 (.param decl index) (by simpa using hindex))
  obtain ⟨c, hc, hbuilt, hmeets⟩ := (follows_iff_of_isInterface hi hne).1 (sub_iff_follows.1 h)
  obtain ⟨ys, rfl⟩ := Ty.isBuiltFrom_iff.1 hbuilt
  have hconcrete : (Ty.applied decl ys).Concrete arity := by
    rcases List.mem_cons.1 hc with rfl | hc
    · exact ha
    · exact hS.concrete_of_mem_closureOf ha _ hc
  obtain ⟨y, hy, hmeet⟩ := exists_of_forall₂_of_getElem? hmeets.flip (a := .param decl index)
    (i := index) (by simp [hindex])
  have hy' := isParam_of_accepts hparam (hmeet b hb)
  rw [hconcrete.2 y (List.mem_of_getElem? hy)] at hy'
  cases hy'

end Signature

namespace Universe

variable {u v : Universe} {decl : DeclId} {d : Declaration} {target : Handle}

theorem Grows.arity (h : u.Grows v) : v.arity = u.arity := by
  funext decl
  rw [Universe.arity, Universe.arity, h.catalog]

/-- Some parameter of a definition is bounded by a parameter. -/
def BoundByParameter (u : Universe) (definition : Handle) : Prop :=
  ∃ param ∈ u.arguments definition, ∃ bound ∈ u.constraints param, u.isParameter bound

instance (u : Universe) (definition : Handle) : Decidable (u.BoundByParameter definition) :=
  inferInstanceAs (Decidable (∃ param ∈ _, ∃ bound ∈ _, _))

namespace Consistent

variable (hu : u.Consistent) (htarget : u.Reads target (.own decl d.arity))
include hu htarget

/-- The arguments of an open definition are its parameters. -/
theorem arguments_own :
    List.Forall₂ u.Reads (u.arguments target) ((List.range d.arity).map (.param decl)) := by
  have h := hu.arguments_of_reads htarget
  rwa [Ty.args_own] at h

/-- Every bound of a declaration is found at the open definition. -/
theorem exists_bound (hd : u.catalog.get? decl = some d) {index : Nat} {k : Ty}
    (hk : k ∈ u.signature.bounds decl index) :
    ∃ param bound, (u.arguments target)[index]? = some param ∧ bound ∈ u.constraints param ∧
      u.Reads bound k := by
  have hindex : index < d.arity := by
    by_contra h
    have hnone : d.parameters[index]? = none := List.getElem?_eq_none (not_lt.1 h)
    simp [signature, parameter?, hd, hnone] at hk
  obtain ⟨param, hparam, hreads⟩ := exists_of_forall₂_of_getElem?
    (hu.arguments_own htarget).flip (a := .param decl index) (i := index) (by simp [hindex])
  obtain ⟨i, hi⟩ := List.mem_iff_getElem?.1 hk
  obtain ⟨bound, hbound, hreads'⟩ :=
    exists_of_forall₂_of_getElem? (hu.constraints_of_reads hreads).flip hi
  exact ⟨param, bound, hparam, List.mem_of_getElem? hbound, hreads'⟩

theorem isParam_of_not_boundByParameter (hd : u.catalog.get? decl = some d)
    (h : ¬ u.BoundByParameter target) {index : Nat} {k : Ty}
    (hk : k ∈ u.signature.bounds decl index) : k.isParam = false := by
  obtain ⟨param, bound, hparam, hbound, hreads⟩ := hu.exists_bound htarget hd hk
  rw [← hu.isParameter_of_reads hreads, ← Bool.not_eq_true]
  exact fun hp => h ⟨param, List.mem_of_getElem? hparam, bound, hbound, hp⟩

theorem exists_isParam_of_boundByParameter (h : u.BoundByParameter target) :
    ∃ index < d.arity, ∃ k ∈ u.signature.bounds decl index, k.isParam := by
  obtain ⟨param, hparam, bound, hbound, hp⟩ := h
  obtain ⟨i, hi⟩ := List.mem_iff_getElem?.1 hparam
  obtain ⟨p, hp', hreads⟩ := exists_of_forall₂_of_getElem? (hu.arguments_own htarget) hi
  obtain ⟨index, hindex, rfl⟩ := List.mem_map.1 (List.mem_of_getElem? hp')
  obtain ⟨hknown, hmap⟩ := forall₂_reads_iff.1 (hu.constraints_of_reads hreads)
  refine ⟨index, List.mem_range.1 hindex, u.typeAt bound, hmap ▸ List.mem_map_of_mem hbound, ?_⟩
  rwa [← hu.isParameter_of_reads (reads_typeAt (hknown bound hbound))]

end Consistent

end Universe

/-- Every argument of a type is, or is natively assignable to, the bounds of its parameter with the
arguments put for the parameters. -/
def Chronicle.MeetsBounds (c : Chronicle) (decl : DeclId) (definition ty : Handle) : Prop :=
  ∀ (i : Nat) (arg param bound : Handle), (c.univ.arguments ty)[i]? = some arg →
    (c.univ.arguments definition)[i]? = some param → bound ∈ c.univ.constraints param →
      let r := UniverseM.instantiate bound decl (c.univ.arguments ty) c
      arg = r.1 ∨ (UniverseM.isAssignable arg r.1 r.2).1 = true

/-- Bounds that are met by handles are met by trees. -/
theorem Chronicle.MeetsBounds.reads {c : Chronicle} {decl : DeclId} {d : Declaration}
    {target ty : Handle} {xs : List Ty} (h : c.MeetsBounds decl target ty) (hc : c.univ.Consistent)
    (hd : c.univ.catalog.get? decl = some d) (htarget : c.univ.Reads target (.own decl d.arity))
    (hty : c.univ.Reads ty (.applied decl xs))
    (hparam : ∀ {index k}, k ∈ c.univ.signature.bounds decl index → k.isParam = false) :
    c.univ.signature.MeetsBounds c.univ.arity decl xs := by
  refine ⟨?_, hparam, fun {index x} hx k hk => ?_⟩
  · obtain ⟨d', hd', hlen, -⟩ := hc.exists_catalog_of_reads hty
    rw [Universe.arity_of_get? hd', hlen]
  · have hargs : List.Forall₂ c.univ.Reads (c.univ.arguments ty) xs := hc.arguments_of_reads hty
    obtain ⟨arg, harg, hreads⟩ := exists_of_forall₂_of_getElem? hargs.flip hx
    obtain ⟨param, bound, hparam, hmem, hreads'⟩ := hc.exists_bound htarget hd hk
    have hmet := h index arg param bound harg hparam hmem
    have hinst : UniverseM.Ensures c.univ (UniverseM.instantiate bound decl (c.univ.arguments ty)) _ :=
      UniverseM.instantiate_ensures hc hreads' hargs
    obtain ⟨hg, hr⟩ := hinst c.journal
    have hx' := hg.reads hreads
    rcases hmet with he | hassign
    · obtain rfl : x = k.instantiate decl xs := by
        rw [← hx'.2, ← hr.2]
        exact congrArg _ he
      exact Signature.isAssignable_self _
    · rw [hg.after.describes.isAssignable hx'.1 hr.1, hx'.2, hr.2, hg.signature] at hassign
      exact hassign

namespace Solver

/-- Let a closed type be, or inherit from, an application of a generic interface whose arguments meet
the bounds with the arguments put in. Unless a bound is itself a parameter, the type can stand for the
open definition, and every query that hits no limit says so. If a bound is a parameter, then no query
relates a closed type to the open definition. -/
theorem Served.open_match_complete {c : Chronicle} {s : Solver} (hc : c.univ.Built) (hs : s.Served c)
    (decl : DeclId) (source target : Handle) (hsource : s.univ.contains source)
    (hclosed : s.univ.isOpen source = false) (htarget : s.univ.ownType? decl = some target)
    (hgeneric : s.univ.isGeneric target) (hinterface : s.univ.isInterface target) :
    (¬ s.univ.BoundByParameter target → ∀ ty : Handle,
      let r := UniverseM.interfaces source s.chronicle
      ty = source ∨ ty ∈ r.1 → r.2.univ.definition? ty = some target → r.2.MeetsBounds decl target ty →
        s.univ.Sub source target ∧ ∀ limits : Limits,
          (Solver.query limits (some source) (some target) s).1.depthExceeded = false →
            (Solver.query limits (some source) (some target) s).1.isRelated) ∧
    (s.univ.BoundByParameter target → ∀ limits : Limits,
      (Solver.query limits (some source) (some target) s).1.isRelated = false) := by
  obtain ⟨hexact, hg⟩ := hs.exact hc.valid
  obtain ⟨d, hd, hown⟩ := (hg.valid hc.valid).reads_of_ownType? htarget
  have hu := hexact.consistent
  have ha := Universe.reads_typeAt hsource
  have hS : s.univ.signature.Scoped s.univ.arity := by
    rw [hexact.signature, hg.arity]
    exact hc.scoped
  rw [hu.isOpen_of_reads ha] at hclosed
  rw [hu.isGeneric_of_reads hown] at hgeneric
  rw [hu.isInterface_of_reads hown] at hinterface
  refine ⟨fun hbound ty hmem hdef hmet => ?_, fun hbound limits => ?_⟩
  · obtain ⟨hg₁, hreads⟩ := UniverseM.interfaces_ensures hu ha s.chronicle.journal
    obtain ⟨t, hty, ht⟩ : ∃ t, (UniverseM.interfaces source s.chronicle).2.univ.Reads ty t ∧
        t ∈ s.univ.typeAt source :: s.univ.signature.closureOf (s.univ.typeAt source) := by
      rcases hmem with rfl | hmem
      · exact ⟨_, hg₁.reads ha, List.mem_cons_self⟩
      · obtain ⟨hknown, hmap⟩ := Universe.forall₂_reads_iff.1 hreads
        refine ⟨_, Universe.reads_typeAt (hknown ty hmem), List.mem_cons_of_mem _ ?_⟩
        rw [← hmap]
        exact List.mem_map_of_mem hmem
    have hbuilt := (hg₁.after.definition?_eq_some_iff (hg₁.owned hexact.owned) (hg₁.catalog ▸ hd)
      ((hg₁.ownType? decl).trans htarget) hty).1 hdef
    obtain ⟨xs, rfl⟩ := Ty.isBuiltFrom_iff.1 hbuilt
    have hxs := hmet.reads hg₁.after (hg₁.catalog ▸ hd) (hg₁.reads hown) hty fun hk =>
      hu.isParam_of_not_boundByParameter hown hd hbound (hg₁.signature ▸ hk)
    rw [hg₁.signature, hg₁.arity] at hxs
    rw [← Universe.arity_of_get? hd] at hgeneric hinterface hown
    have hsub := hxs.sub_own hS hgeneric hinterface ht
    refine ⟨by rwa [Universe.Sub, hown.2], fun limits hexc => ?_⟩
    rw [hexact.signature] at hsub
    exact ((hexact.query limits ha hown).2.isRelated_iff hexc).2 hsub
  · obtain ⟨index, hindex, k, hk, hparam⟩ := hu.exists_isParam_of_boundByParameter hown hbound
    rw [← Bool.not_eq_true]
    intro hrel
    have hsub := (hexact.query limits ha hown).2.related hrel
    rw [← hexact.signature] at hsub
    exact hS.not_sub_own (hu.concrete_of_reads ha hclosed) hinterface hindex hk hparam hsub

/-! ## Bounds by the definition and by a parameter -/

/-- An interface `D<T>` that bounds `T` by `D<T>`, and a class `X` that implements `D<X>`. The types are
`T`, `D<T>`, `X` and `D<X>`, in this order. -/
def comparable : Chronicle :=
  Operation.runAll
    [.declare (.bare .interfaceKind "D" ["T"]), .addConstraint ⟨1⟩ ⟨2⟩,
      .declare (.bare .classKind "X" []), .apply ⟨2⟩ [⟨3⟩], .addInterface ⟨3⟩ ⟨4⟩] .fresh

/-- An interface `D<T, U>` that bounds `T` by `U`, and a class `X` that implements `D<X, X>`. The types
are `T`, `U`, `D<T, U>`, `X` and `D<X, X>`, in this order. -/
def crossBounded : Chronicle :=
  Operation.runAll
    [.declare (.bare .interfaceKind "D" ["T", "U"]), .addConstraint ⟨1⟩ ⟨2⟩,
      .declare (.bare .classKind "X" []), .apply ⟨3⟩ [⟨4⟩, ⟨4⟩], .addInterface ⟨4⟩ ⟨5⟩] .fresh

theorem built_comparable : comparable.univ.Built :=
  Operation.built_runAll .empty (by cbv)

theorem built_crossBounded : crossBounded.univ.Built :=
  Operation.built_runAll .empty (by cbv)

/-- `D<,>` is an open interface, and `X` is closed. -/
theorem crossBounded_types :
    crossBounded.univ.contains ⟨4⟩ ∧ crossBounded.univ.isOpen ⟨4⟩ = false ∧
      crossBounded.univ.ownType? ⟨1⟩ = some ⟨3⟩ ∧ crossBounded.univ.isGeneric ⟨3⟩ ∧
      crossBounded.univ.isInterface ⟨3⟩ :=
  ⟨by cbv, by cbv, by cbv, by cbv, by cbv⟩

theorem meetsBounds_comparable :
    (UniverseM.interfaces ⟨3⟩ comparable).2.MeetsBounds ⟨1⟩ ⟨2⟩ ⟨4⟩ := by
  have h : ((UniverseM.interfaces ⟨3⟩ comparable).2.univ.arguments ⟨4⟩,
      (UniverseM.interfaces ⟨3⟩ comparable).2.univ.arguments ⟨2⟩,
      (UniverseM.interfaces ⟨3⟩ comparable).2.univ.constraints ⟨1⟩,
      let r := UniverseM.instantiate ⟨2⟩ ⟨1⟩ [⟨3⟩] (UniverseM.interfaces ⟨3⟩ comparable).2
      (UniverseM.isAssignable ⟨3⟩ r.1 r.2).1) = ([⟨3⟩], [⟨1⟩], [⟨2⟩], true) := by cbv
  simp only [Prod.mk.injEq] at h
  obtain ⟨hargs, hparams, hbounds, hassign⟩ := h
  intro i arg param bound harg hparam hbound
  rw [hargs, List.getElem?_singleton] at harg
  rw [hparams, List.getElem?_singleton] at hparam
  split_ifs at harg hparam
  cases harg
  cases hparam
  rw [hbounds, List.mem_singleton] at hbound
  rw [hbound, hargs]
  exact Or.inr hassign

/-- `X` can stand for the open `D<>` if `D` is bounded by itself. If `T` is bounded by `U`, no query says
so. -/
theorem Served.open_match_complete_comparable :
    (comparable.univ.Sub ⟨3⟩ ⟨2⟩ ∧
      (Solver.query .query (some ⟨3⟩) (some ⟨2⟩) ⟨comparable, {}⟩).1.isRelated) ∧
    ∀ limits : Limits,
      (Solver.query limits (some ⟨4⟩) (some ⟨3⟩) ⟨crossBounded, {}⟩).1.isRelated = false := by
  constructor
  · have hmem : (UniverseM.interfaces ⟨3⟩ comparable).1 = [⟨4⟩] := by cbv
    obtain ⟨hsub, hquery⟩ := (open_match_complete built_comparable .new ⟨1⟩ ⟨3⟩ ⟨2⟩ (by cbv) (by cbv)
      (by cbv) (by cbv) (by cbv)).1 (of_decide_eq_false (by cbv)) ⟨4⟩
      (Or.inr (hmem ▸ List.mem_singleton_self _)) (by cbv) meetsBounds_comparable
    exact ⟨hsub, hquery .query (by cbv)⟩
  · obtain ⟨hsource, hclosed, htarget, hgeneric, hinterface⟩ := crossBounded_types
    exact (open_match_complete built_crossBounded .new ⟨1⟩ ⟨4⟩ ⟨3⟩ hsource hclosed htarget hgeneric
      hinterface).2 (of_decide_eq_true (by cbv))

theorem meetsBounds_crossBounded :
    (UniverseM.interfaces ⟨4⟩ crossBounded).2.MeetsBounds ⟨1⟩ ⟨3⟩ ⟨5⟩ := by
  have h : ((UniverseM.interfaces ⟨4⟩ crossBounded).2.univ.arguments ⟨5⟩,
      (UniverseM.interfaces ⟨4⟩ crossBounded).2.univ.arguments ⟨3⟩,
      (UniverseM.interfaces ⟨4⟩ crossBounded).2.univ.constraints ⟨1⟩,
      (UniverseM.interfaces ⟨4⟩ crossBounded).2.univ.constraints ⟨2⟩,
      (UniverseM.instantiate ⟨2⟩ ⟨1⟩ [⟨4⟩, ⟨4⟩] (UniverseM.interfaces ⟨4⟩ crossBounded).2).1) =
        ([⟨4⟩, ⟨4⟩], [⟨1⟩, ⟨2⟩], [⟨2⟩], [], ⟨4⟩) := by cbv
  simp only [Prod.mk.injEq] at h
  obtain ⟨hargs, hparams, hboundsT, hboundsU, hinst⟩ := h
  intro i arg param bound harg hparam hbound
  rw [hargs] at harg
  rw [hparams] at hparam
  rcases i with _ | _ | i
  · cases harg
    cases hparam
    rw [hboundsT, List.mem_singleton] at hbound
    rw [hbound, hargs]
    exact Or.inl hinst.symm
  · cases hparam
    rw [hboundsU] at hbound
    cases hbound
  · cases hparam

/-- With `T` bounded by `U`, the arguments of `D<X, X>` meet the bounds, since `X` is put for `U`. Yet `X`,
which implements `D<X, X>`, is not related to the open `D<,>`. -/
theorem Served.not_forall_open_match_complete :
    ¬ ∀ (c : Chronicle) (s : Solver), c.univ.Built → s.Served c →
      ∀ (decl : DeclId) (source target : Handle), s.univ.contains source →
        s.univ.isOpen source = false → s.univ.ownType? decl = some target →
        s.univ.isGeneric target → s.univ.isInterface target → ∀ ty : Handle,
          let r := UniverseM.interfaces source s.chronicle
          ty = source ∨ ty ∈ r.1 → r.2.univ.definition? ty = some target →
            r.2.MeetsBounds decl target ty → ∀ limits : Limits,
              (Solver.query limits (some source) (some target) s).1.depthExceeded = false →
                (Solver.query limits (some source) (some target) s).1.isRelated := by
  intro h
  obtain ⟨hsource, hclosed, htarget, hgeneric, hinterface⟩ := crossBounded_types
  have hmem : (UniverseM.interfaces ⟨4⟩ crossBounded).1 = [⟨5⟩] := by cbv
  have hno : (Solver.query .query (some ⟨4⟩) (some ⟨3⟩) ⟨crossBounded, {}⟩).1 = ⟨none, false, false⟩ := by
    cbv
  have hrel := h crossBounded ⟨crossBounded, {}⟩ built_crossBounded .new ⟨1⟩ ⟨4⟩ ⟨3⟩ hsource hclosed
    htarget hgeneric hinterface ⟨5⟩ (Or.inr (hmem ▸ List.mem_singleton_self _)) (by cbv)
    meetsBounds_crossBounded .query (by rw [hno])
  rw [hno] at hrel
  cases hrel

end Solver

end Subtyping
