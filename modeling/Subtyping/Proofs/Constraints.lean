import Subtyping.Proofs.Exactness

/-!
# Bounds of open definitions

A query for the open definition of a generic interface `D` resolves to the source itself or to one of
its interfaces, with the arguments as they are. Each argument meets the bounds of the parameter that it
stands for, as they are declared: the parameters of `D` that occur in a bound stay open
(`Solver.Served.open_match_meets_bounds`). A bound in which no parameter of `D` occurs is thereby met
by the arguments themselves. A bound that mentions the parameters need not hold once the arguments
are put for them (`Solver.Served.not_forall_open_match_meets_instantiated`).
-/

namespace Subtyping

/-- Without parameters of the owner, there is nothing to replace. -/
theorem Ty.fill_of_anyOwner_eq_false {t : Ty} {owner : DeclId} (h : t.anyOwner (· == owner) = false)
    (args : List Ty) (levels : Nat) : t.fill owner args levels = t := by
  induction levels generalizing t with
  | zero =>
    cases t with
    | plain decl => rfl
    | applied decl ts => rfl
    | param o i => rw [fill, if_neg (by simpa [anyOwner] using h)]
  | succ levels ih =>
    cases t with
    | plain decl => rfl
    | applied decl ts =>
      rw [anyOwner, anyOwnerIn_eq_any, List.any_eq_false] at h
      rw [fill, List.map_congr_left fun t ht => ih (by simpa using h t ht), List.map_id']
    | param o i => rw [fill, if_neg (by simpa [anyOwner] using h)]

theorem Ty.args_own (decl : DeclId) (arity : Nat) :
    (own decl arity).args = (List.range arity).map (param decl) := by
  unfold own
  split_ifs with h
  · rw [h]
    rfl
  · rfl

/-- The type of a generic declaration is open. -/
theorem Ty.isOpen_own {decl : DeclId} {arity : Nat} (h : (own decl arity).isGeneric) :
    (own decl arity).isOpen := by
  unfold own at h ⊢
  split_ifs at h ⊢ with harity
  · cases h
  · simp only [isOpen, anyOwner, anyOwnerIn_eq_any, List.any_eq_true]
    exact ⟨param decl 0, List.mem_map.2 ⟨0, List.mem_range.2 (Nat.pos_of_ne_zero harity), rfl⟩, rfl⟩

namespace Signature

variable {S : Signature} {a t : Ty} {decl : DeclId} {arity : Nat}

/-- At parameters, arguments stay as they are. -/
theorem resArgs_map_param {args : List Ty} {is : List Nat} (h : args.length = is.length) :
    S.resArgs args (is.map (Ty.param decl)) = args := by
  induction args generalizing is with
  | nil =>
    obtain rfl := List.eq_nil_of_length_eq_zero h.symm
    rw [List.map_nil, resArgs]
    intro _ _ _ _ h
    cases h
  | cons arg args ih =>
    cases is with
    | nil => cases h
    | cons i is =>
      have hparam : (Ty.param decl i).isParam := rfl
      rw [List.map_cons, resArgs_cons, ih (Nat.succ.inj h), resArg, if_pos (Or.inl hparam)]

/-- What resolves for an open definition is a candidate as it is. -/
theorem suits_of_res_own (ha : a.isOpen = false) (hg : (Ty.own decl arity).isGeneric)
    (hi : S.isInterface (.own decl arity)) (h : S.res a (.own decl arity) = some t) :
    t ∈ a :: S.closureOf a ∧ S.Suits S.Sub decl ((List.range arity).map (.param decl)) t := by
  have hne : a ≠ .own decl arity := by
    rintro rfl
    rw [Ty.isOpen_own hg] at ha
    cases ha
  have harity : arity ≠ 0 := by
    rintro rfl
    cases hg
  rw [Ty.own, if_neg harity] at h hne hi
  rw [res, if_neg hne, if_pos hi] at h
  obtain ⟨c, hc, rfl⟩ := Option.map_eq_some_iff.1 h
  rw [candidate?, firstSuited] at hc
  have hsuits : S.Suits S.Sub decl ((List.range arity).map (.param decl)) c := by
    simpa using List.find?_some hc
  have hmem : c ∈ a :: S.closureOf a := List.mem_of_find?_eq_some hc
  obtain ⟨args, rfl⟩ := Ty.isBuiltFrom_iff.1 hsuits.1
  rw [resArgs_map_param (by simpa [Ty.args] using hsuits.2.length_eq)]
  exact ⟨hmem, hsuits⟩

end Signature

theorem exists_of_forall₂_of_getElem? {α β : Type} {R : α → β → Prop} {l : List α} {m : List β}
    (h : List.Forall₂ R l m) {i : Nat} {a : α} (ha : l[i]? = some a) :
    ∃ b, m[i]? = some b ∧ R a b := by
  obtain ⟨hi, rfl⟩ := List.getElem?_eq_some_iff.1 ha
  have hi' : i < m.length := h.length_eq ▸ hi
  exact ⟨m[i], List.getElem?_eq_getElem hi', h.get hi hi'⟩

namespace Universe.Consistent

variable {c : Chronicle} {source ty : Handle} {a t : Ty}

theorem mem_interfaces_iff (hc : c.univ.Consistent) (ha : c.univ.Reads source a)
    (ht : c.univ.Reads ty t) :
    ty ∈ (UniverseM.interfaces source c).1 ↔ t ∈ c.univ.signature.closureOf a := by
  obtain ⟨hg, hreads⟩ := UniverseM.interfaces_ensures hc ha c.journal
  exact hg.after.mem_iff_of_reads hreads (hg.reads ht)

/-- A type without parameters of the owner stays as it is. -/
theorem instantiate_eq_self (hc : c.univ.Consistent) {owner : DeclId} {args : List Handle}
    (hty : c.univ.contains ty) (hargs : ∀ a ∈ args, c.univ.contains a)
    (h : c.univ.anyOwner (· == owner) ty = false) : (UniverseM.instantiate ty owner args c).1 = ty := by
  have ht := reads_typeAt hty
  have hinst : UniverseM.Ensures c.univ (UniverseM.instantiate ty owner args) _ :=
    UniverseM.instantiate_ensures hc ht (forall₂_reads_map hargs)
  obtain ⟨hg, hr⟩ := hinst c.journal
  rw [hc.anyOwner_of_reads _ ht] at h
  rw [Ty.instantiate, Ty.fill_of_anyOwner_eq_false h] at hr
  exact hg.after.reads_injective hr (hg.reads ht)

/-- The arguments of a type that suits an open definition are accepted for the declared bounds. -/
theorem accepts_of_suits {u : Universe} (hu : u.Consistent) {decl : DeclId} {arity : Nat}
    {target : Handle} (ht : u.Reads ty t) (htarget : u.Reads target (.own decl arity))
    (hsuits : u.signature.Suits u.signature.Sub decl ((List.range arity).map (.param decl)) t)
    {i : Nat} {arg param bound : Handle} (harg : (u.arguments ty)[i]? = some arg)
    (hparam : (u.arguments target)[i]? = some param) (hbound : bound ∈ u.constraints param) :
    ∃ x k, u.Reads arg x ∧ u.Reads bound k ∧ u.signature.Accepts u.signature.Sub x k := by
  obtain ⟨x, hx, hreads⟩ := exists_of_forall₂_of_getElem? (hu.arguments_of_reads ht) harg
  obtain ⟨p, hp, hreads'⟩ := exists_of_forall₂_of_getElem? (hu.arguments_of_reads htarget) hparam
  obtain ⟨p', hp', hmeets⟩ := exists_of_forall₂_of_getElem? hsuits.2 hx
  obtain ⟨n, -, rfl⟩ : ∃ n, (List.range arity)[i]? = some n ∧ .param decl n = p' := by
    simpa using hp'
  rw [Ty.args_own] at hp
  cases hp.symm.trans hp'
  obtain ⟨hknown, hmap⟩ := forall₂_reads_iff.1 (hu.constraints_of_reads hreads')
  exact ⟨x, _, hreads, reads_typeAt (hknown bound hbound),
    hmeets _ (hmap ▸ List.mem_map_of_mem hbound)⟩

end Universe.Consistent

namespace Solver

variable {c : Chronicle} {s s' : Solver}

theorem Served.open_match_meets_bounds (hc : c.univ.Built) (hs : s.Served c) (decl : DeclId)
    (source target ty : Handle) (limits : Limits) (hit : Bool) (hsource : s.univ.contains source)
    (hclosed : s.univ.isOpen source = false) (htarget : s.univ.ownType? decl = some target)
    (hgeneric : s.univ.isGeneric target) (hinterface : s.univ.isInterface target)
    (hquery : Solver.query limits (some source) (some target) s = (⟨some ty, hit, false⟩, s')) :
    s'.univ.definition? ty = some target ∧
    (ty = source ∨ ty ∈ (UniverseM.interfaces source s'.chronicle).1) ∧
    ∀ (i : Nat) (arg param bound : Handle), (s'.univ.arguments ty)[i]? = some arg →
      (s'.univ.arguments target)[i]? = some param → bound ∈ s'.univ.constraints param →
        (arg = bound ∨ (UniverseM.isAssignable arg bound s'.chronicle).1 = true ∨
          s'.univ.Sub arg bound ∧ ∀ limits' : Limits,
            (Solver.query limits' (some arg) (some bound) s').1.depthExceeded = false →
              (Solver.query limits' (some arg) (some bound) s').1.isRelated) ∧
        (s'.univ.anyOwner (· == decl) bound = false →
          (UniverseM.instantiate bound decl (s'.univ.arguments ty) s'.chronicle).1 = bound) := by
  obtain ⟨hexact, hg⟩ := hs.exact hc.valid
  obtain ⟨d, hd, hown⟩ := (hg.valid hc.valid).reads_of_ownType? htarget
  have ha := Universe.reads_typeAt hsource
  obtain ⟨hadv, hreply⟩ := hexact.query limits ha hown
  rw [hquery] at hadv hreply
  have hv := hadv.exact.consistent
  have hv' := hadv.grows
  rw [hexact.consistent.isOpen_of_reads ha] at hclosed
  rw [hexact.consistent.isGeneric_of_reads hown] at hgeneric
  rw [hexact.consistent.isInterface_of_reads hown, hexact.signature] at hinterface
  obtain ⟨t, hty, ht⟩ : ∃ t, s'.univ.Reads ty t ∧
      c.univ.signature.res (s.univ.typeAt source) (.own decl d.arity) = some t := by
    have hrel := hreply.resolved rfl
    generalize c.univ.signature.res (s.univ.typeAt source) (.own decl d.arity) = r at hrel
    cases hrel with
    | some h => exact ⟨_, h, rfl⟩
  obtain ⟨hmem, hsuits⟩ := Signature.suits_of_res_own hclosed hgeneric hinterface ht
  refine ⟨?_, ?_, fun i arg param bound harg hparam hbound => ?_⟩
  · exact (hv.definition?_eq_some_iff hadv.exact.owned (hv'.catalog ▸ hd)
      ((hv'.ownType? decl).trans htarget) hty).2 hsuits.1
  · rcases List.mem_cons.1 hmem with rfl | hmem
    · exact Or.inl (hv.reads_injective hty (hv'.reads ha))
    · rw [← hadv.exact.signature] at hmem
      exact Or.inr ((hv.mem_interfaces_iff (hv'.reads ha) hty).2 hmem)
  · rw [← hadv.exact.signature] at hsuits
    obtain ⟨x, k, hx, hk, haccepts⟩ :=
      hv.accepts_of_suits hty (hv'.reads hown) hsuits harg hparam hbound
    refine ⟨?_, hv.instantiate_eq_self hk.1 (Universe.forall₂_reads_iff.1 (hv.arguments_of_reads hty)).1⟩
    rcases haccepts with rfl | hassign | hsub
    · exact Or.inl (hv.reads_injective hx hk)
    · refine Or.inr (Or.inl ?_)
      rw [hv.describes.isAssignable hx.1 hk.1, hx.2, hk.2]
      exact hassign
    · refine Or.inr (Or.inr ⟨?_, fun limits' hexc => ?_⟩)
      · rw [Universe.Sub, hx.2, hk.2]
        exact hsub
      · rw [hadv.exact.signature] at hsub
        exact ((hadv.exact.query limits' hx hk).2.isRelated_iff hexc).2 hsub

/-! ## The self-bounded interface -/

/-- `D<>` is an open interface, and `X` and `D<X>` are closed. -/
theorem selfBounded_types :
    Chronicle.selfBounded.univ.contains ⟨2⟩ ∧ Chronicle.selfBounded.univ.contains ⟨3⟩ ∧
      Chronicle.selfBounded.univ.contains ⟨4⟩ ∧ Chronicle.selfBounded.univ.isOpen ⟨3⟩ = false ∧
      Chronicle.selfBounded.univ.isOpen ⟨4⟩ = false ∧
      Chronicle.selfBounded.univ.ownType? ⟨1⟩ = some ⟨2⟩ ∧
      Chronicle.selfBounded.univ.isGeneric ⟨2⟩ ∧ Chronicle.selfBounded.univ.isInterface ⟨2⟩ :=
  ⟨by cbv, by cbv, by cbv, by cbv, by cbv, by cbv, by cbv, by cbv⟩

/-- The solver of the self-bounded interface after a query for `D<>`. -/
def selfBoundedAfter (source : Handle) : Solver :=
  (Solver.query .query (some source) (some ⟨2⟩) ⟨.selfBounded, {}⟩).2

theorem query_selfBounded_X : Solver.query .query (some ⟨3⟩) (some ⟨2⟩) ⟨.selfBounded, {}⟩ =
    (⟨some ⟨5⟩, false, false⟩, selfBoundedAfter ⟨3⟩) :=
  Prod.ext (by cbv) rfl

theorem query_selfBounded_DX : Solver.query .query (some ⟨4⟩) (some ⟨2⟩) ⟨.selfBounded, {}⟩ =
    (⟨some ⟨4⟩, false, false⟩, selfBoundedAfter ⟨4⟩) :=
  Prod.ext (by cbv) rfl

/-- In the universe of the self-bounded interface, `X` is matched with `D<D<X>>`, whose argument
`D<X>` meets the open bound `D<T>`. -/
theorem Served.open_match_meets_bounds_selfBounded :
    ⟨5⟩ ∈ (UniverseM.interfaces ⟨3⟩ (selfBoundedAfter ⟨3⟩).chronicle).1 ∧
      (selfBoundedAfter ⟨3⟩).univ.Sub ⟨4⟩ ⟨2⟩ := by
  obtain ⟨-, hsource, -, hclosed, -, htarget, hgeneric, hinterface⟩ := selfBounded_types
  have hafter : ((selfBoundedAfter ⟨3⟩).univ.arguments ⟨5⟩, (selfBoundedAfter ⟨3⟩).univ.arguments ⟨2⟩,
      (selfBoundedAfter ⟨3⟩).univ.constraints ⟨1⟩,
      (UniverseM.isAssignable ⟨4⟩ ⟨2⟩ (selfBoundedAfter ⟨3⟩).chronicle).1) =
        ([⟨4⟩], [⟨1⟩], [⟨2⟩], false) := by cbv
  simp only [Prod.mk.injEq] at hafter
  obtain ⟨hargs, hparams, hbounds, hassign⟩ := hafter
  have h := open_match_meets_bounds Chronicle.built_selfBounded .new ⟨1⟩ ⟨3⟩ ⟨2⟩ ⟨5⟩ .query false
    hsource hclosed htarget hgeneric hinterface query_selfBounded_X
  have hmet := (h.2.2 0 ⟨4⟩ ⟨1⟩ ⟨2⟩ (by rw [hargs]; rfl) (by rw [hparams]; rfl)
    (by rw [hbounds]; exact List.mem_singleton_self _)).1
  rw [hassign] at hmet
  exact ⟨h.2.1.resolve_left (by decide),
    ((hmet.resolve_left (by decide)).resolve_left Bool.false_ne_true).1⟩

/-- No query relates `X` to `D<X>`, whatever has been asked or added before. -/
theorem not_isRelated_selfBounded {s : Solver} (hs : s.Served .selfBounded) (limits : Limits) :
    (Solver.query limits (some ⟨3⟩) (some ⟨4⟩) s).1.isRelated = false := by
  obtain ⟨-, hX, hDX, -⟩ := selfBounded_types
  obtain ⟨hnew, -⟩ := (Served.new (c := .selfBounded)).exact Chronicle.built_selfBounded.valid
  obtain ⟨hexact, hg⟩ := hs.exact Chronicle.built_selfBounded.valid
  have hX' := Universe.reads_typeAt hX
  have hDX' := Universe.reads_typeAt hDX
  have hno : (Solver.query .query (some ⟨3⟩) (some ⟨4⟩) ⟨.selfBounded, {}⟩).1 = ⟨none, false, false⟩ := by
    cbv
  have hiff := (hnew.query .query hX' hDX').2.isRelated_iff (by rw [hno])
  rw [hno] at hiff
  rw [← Bool.not_eq_true]
  intro h
  exact Bool.false_ne_true (hiff.2 ((hexact.query limits (hg.reads hX') (hg.reads hDX')).2.related h))

/-- The bound `D<T>` of the self-bounded interface, with `X` put for `T`, is `D<X>`. Yet `D<X>` is
matched for the open `D<>`, although `X` is not `D<X>` and no query relates the two. -/
theorem Served.not_forall_open_match_meets_instantiated :
    ¬ ∀ (c : Chronicle) (s s' : Solver), c.univ.Built → s.Served c →
      ∀ (decl : DeclId) (source target ty : Handle) (limits : Limits) (hit : Bool),
        s.univ.contains source → s.univ.isOpen source = false → s.univ.ownType? decl = some target →
        s.univ.isGeneric target → s.univ.isInterface target →
        Solver.query limits (some source) (some target) s = (⟨some ty, hit, false⟩, s') →
        ∀ (i : Nat) (arg param bound : Handle), (s'.univ.arguments ty)[i]? = some arg →
          (s'.univ.arguments target)[i]? = some param → bound ∈ s'.univ.constraints param →
            let r := UniverseM.instantiate bound decl (s'.univ.arguments ty) s'.chronicle
            arg = r.1 ∨ ∃ limits' : Limits,
              (Solver.query limits' (some arg) (some r.1) ⟨r.2, s'.verdicts⟩).1.isRelated := by
  intro h
  obtain ⟨hD, hX, hDX, -, hclosed, htarget, hgeneric, hinterface⟩ := selfBounded_types
  have hserved : Served .selfBounded (selfBoundedAfter ⟨4⟩) :=
    .query .new .query (by rintro _ ⟨⟩; exact hDX) (by rintro _ ⟨⟩; exact hD)
  have hg := (hserved.exact Chronicle.built_selfBounded.valid).2
  have hafter : ((selfBoundedAfter ⟨4⟩).univ.arguments ⟨4⟩, (selfBoundedAfter ⟨4⟩).univ.arguments ⟨2⟩,
      (selfBoundedAfter ⟨4⟩).univ.constraints ⟨1⟩,
      (UniverseM.instantiate ⟨2⟩ ⟨1⟩ [⟨3⟩] (selfBoundedAfter ⟨4⟩).chronicle).1) =
        ([⟨3⟩], [⟨1⟩], [⟨2⟩], ⟨4⟩) := by cbv
  simp only [Prod.mk.injEq] at hafter
  obtain ⟨hargs, hparams, hbounds, hinst⟩ := hafter
  have hmet := h .selfBounded ⟨.selfBounded, {}⟩ _ Chronicle.built_selfBounded .new ⟨1⟩ ⟨4⟩ ⟨2⟩ ⟨4⟩
    .query false hDX hclosed htarget hgeneric hinterface query_selfBounded_DX 0 ⟨3⟩ ⟨1⟩ ⟨2⟩
    (by rw [hargs]; rfl) (by rw [hparams]; rfl) (by rw [hbounds]; exact List.mem_singleton_self _)
  dsimp only at hmet
  rw [hargs, hinst] at hmet
  obtain ⟨limits', hrel⟩ := hmet.resolve_left (by decide)
  have hlater : Served .selfBounded
      ⟨(UniverseM.instantiate ⟨2⟩ ⟨1⟩ [⟨3⟩] (selfBoundedAfter ⟨4⟩).chronicle).2,
        (selfBoundedAfter ⟨4⟩).verdicts⟩ := by
    refine @Served.operation _ _ hserved (.instantiate ⟨2⟩ ⟨1⟩ [⟨3⟩]) rfl fun ty hty => hg.contains ?_
    rcases List.mem_cons.1 hty with rfl | hty
    · exact hD
    · rw [List.mem_singleton.1 hty]
      exact hX
  exact Bool.false_ne_true ((not_isRelated_selfBounded hlater limits').symm.trans hrel)

end Solver

end Subtyping
