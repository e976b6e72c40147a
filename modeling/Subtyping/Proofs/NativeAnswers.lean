import Subtyping.Proofs.Conclusive

/-!
# Native assignability and substitution

A type without parameters can stand for each type without parameters that it is natively assignable to,
and a query finds this out under any limits that let one question in
(`Solver.Served.assignable_related`). A target that is no generic interface raises no further question,
so nothing can be refused (`Search.guard_resolve`), and the answer is exact: the source if the target is
not generic, and the target itself if it is a generic class or struct, since no declaration heads two
types of a base chain (`Universe.Consistent.find?_chainFrom`). For a generic interface, limits may turn
down other candidates, but the target is a candidate for itself that raises no question
(`Search.firstSatisfying_of_mem`).
-/

namespace Subtyping

theorem Ty.Concrete.isParam_eq_false {arity : DeclId → Nat} {t : Ty} (h : t.Concrete arity) :
    t.isParam = false := by
  cases t with
  | plain _ => rfl
  | applied _ _ => rfl
  | param _ _ => cases h

theorem Ty.Concrete.exists_head? {arity : DeclId → Nat} {t : Ty} (h : t.Concrete arity) :
    ∃ decl, t.head? = some decl := by
  cases t with
  | plain decl => exact ⟨decl, rfl⟩
  | applied decl _ => exact ⟨decl, rfl⟩
  | param _ _ => cases h

/-! ## Base chains -/

namespace Universe

variable {u : Universe} {a b x : Ty} {decl head : DeclId} {steps : Nat}

/-- Ranks do not rise along a base chain. -/
theorem Consistent.rank_le_of_mem_chainFrom (hu : u.Consistent) (ha : a.head? = some head)
    (hx : x ∈ u.signature.chainFrom steps a) : ∃ e, x.head? = some e ∧ u.rank e ≤ u.rank head := by
  refine Signature.forall_mem_chainFrom
    (P := fun x => ∃ e, x.head? = some e ∧ u.rank e ≤ u.rank head) ?_ ⟨head, ha, le_rfl⟩ x hx
  rintro t b ⟨e, he, hle⟩ hb
  obtain ⟨parent, hp, hinherits⟩ := hu.inherits_of_baseOf he hb
  exact ⟨parent, hp, (hu.rank_lt_of_inherits hinherits).le.trans hle⟩

/-- A declaration heads one type of a base chain at most, so the first one that is built from it is
the only one. -/
theorem Consistent.find?_chainFrom (hu : u.Consistent) (ha : a.head? = some head)
    (hb : b ∈ u.signature.chainFrom steps a) (hbuilt : b.isBuiltFrom decl) :
    (u.signature.chainFrom steps a).find? (·.isBuiltFrom decl) = some b := by
  induction steps generalizing a head with
  | zero => cases hb
  | succ n ih =>
    rw [Signature.chainFrom] at hb ⊢
    cases hbase : u.signature.baseOf a with
    | none =>
      rw [hbase] at hb
      obtain rfl := List.mem_singleton.1 hb
      exact List.find?_cons_of_pos hbuilt
    | some base =>
      rw [hbase] at hb
      rcases List.mem_cons.1 hb with rfl | hmem
      · exact List.find?_cons_of_pos hbuilt
      · obtain ⟨parent, hp, hinherits⟩ := hu.inherits_of_baseOf ha hbase
        have hno : ¬ a.isBuiltFrom decl = true := by
          intro h
          obtain ⟨as, rfl⟩ := Ty.isBuiltFrom_iff.1 h
          obtain ⟨bs, rfl⟩ := Ty.isBuiltFrom_iff.1 hbuilt
          cases ha
          obtain ⟨e, he, hle⟩ := hu.rank_le_of_mem_chainFrom hp hmem
          cases he
          exact absurd (hu.rank_lt_of_inherits hinherits) (Nat.not_lt.2 hle)
        rw [List.find?_cons_of_neg hno]
        exact ih hp hmem

/-- A known type that is no parameter has a kind. -/
theorem Consistent.isSome_kindOf? (hu : u.Consistent) {ty : Handle} (h : u.Reads ty a)
    (hparam : a.isParam = false) : (u.signature.kindOf? a).isSome := by
  cases a with
  | param _ _ => cases hparam
  | plain decl =>
    obtain ⟨d, hd, -⟩ := hu.fits (hu.shape?_of_reads_plain h)
    simp [Signature.kindOf?, Ty.head?, signature, hd]
  | applied decl args =>
    obtain ⟨d, hd, -⟩ := hu.exists_catalog_of_reads h
    simp [Signature.kindOf?, Ty.head?, signature, hd]

/-- A type that is assignable to another application of a class or struct stands for just that. -/
theorem Consistent.res_of_isAssignable (hu : u.Consistent) (ha : a.head? = some head)
    (hgeneric : b.isGeneric) (hkind : u.signature.isBaseKind b) (hne : a ≠ b)
    (h : u.signature.isAssignable a b) : u.signature.res a b = some b := by
  cases b with
  | plain _ => cases hgeneric
  | param _ _ => cases hgeneric
  | applied decl args =>
    have hinterface : ¬ u.signature.isInterface (.applied decl args) = true := by
      intro hi
      rw [Signature.isBaseKind_eq_false_of_isInterface hi] at hkind
      cases hkind
    rw [Signature.res, if_neg hne, if_neg hinterface, if_pos hkind]
    exact hu.find?_chainFrom ha (Signature.mem_chain_of_isAssignable hkind h) (beq_self_eq_true decl)

end Universe

namespace Search

open UniverseM

variable {S : Signature} {s : Search} {pair : Pair} {levels : Nat} {a : Ty}
  {definition source target : Handle} {nested : Nested SearchM}

/-! ## Targets that are no generic interfaces -/

/-- Without nested questions, the guard is left alone. -/
theorem congruence_guard : Congruence SearchM SearchM fun x _ => ∀ s, (x s).2.guard = s.guard where
  pure _ _ := rfl
  bind hx hf s := (hf _ _).trans (hx s)
  lift _ _ := rfl
  refuse _ := rfl

/-- Only generic interfaces raise nested questions. -/
theorem guard_resolve (h : s.univ.isGeneric target = false ∨ s.univ.isInterface target = false) :
    (resolve nested source target s).2.guard = s.guard := by
  rw [resolve, run_view_bind]
  split_ifs with hgeneric
  · have hinterface := h.resolve_left (by simp [hgeneric])
    rw [run_view_bind]
    cases s.univ.definition? target with
    | none => rfl
    | some definition =>
      dsimp only
      rw [run_view_bind, hinterface]
      exact congruence_guard.firstWithDefinition definition source _ source s
  · exact congruence_guard.resolveClosed source target s

/-- So the first question of a search, if about no generic interface, is answered without a flag. -/
theorem evaluate_of_not_interface (hguard : s.guard = .new s.guard.limits)
    (hdepth : 0 < s.guard.limits.depth) (hsteps : 0 < s.guard.limits.steps)
    (h : s.univ.isGeneric pair.target = false ∨ s.univ.isInterface pair.target = false) :
    (evaluate (levels + 1) pair s).2.guard.exceeded = false := by
  rw [evaluate_of_pushed (enter_of_new hguard hdepth hsteps), exceeded_settle,
    guard_resolve (s := s.pushed pair 1) h]
  show s.guard.exceeded = false
  rw [hguard]
  rfl

/-! ## Generic interfaces -/

/-- Arguments that are no parameters meet themselves. -/
theorem matchArguments_self {args : List Handle} (h : ∀ arg ∈ args, s.univ.isParameter arg = false) :
    matchArguments nested (args.zip args) s = (some args, s) := by
  induction args with
  | nil => rfl
  | cons arg args ih =>
    obtain ⟨harg, hargs⟩ := List.forall_mem_cons.1 h
    have hself : matchArgument nested arg arg s = (some arg, s) := by
      rw [matchArgument, run_view_bind, harg, if_neg Bool.false_ne_true, if_pos rfl]
      rfl
    rw [List.zip_cons_cons, matchArguments, run_bind, hself]
    dsimp only
    rw [run_bind, ih hargs]
    rfl

variable {C : Ty → Prop} {decl : DeclId} {bs cs : List Ty}

/-- An application without parameters among its arguments satisfies itself, whatever the answers to
nested questions. -/
theorem satisfy_self (hs : Passing S C s) (ht : s.univ.Reads target (.applied decl bs))
    (hparam : ∀ b ∈ bs, b.isParam = false) : (satisfy nested target target s).1.isSome := by
  have hbs : List.Forall₂ _ _ bs := hs.consistent.arguments_of_reads ht
  have hargs : ∀ arg ∈ s.univ.arguments target, s.univ.isParameter arg = false := by
    intro arg harg
    obtain ⟨hknown, rfl⟩ := Universe.forall₂_reads_iff.1 hbs
    rw [hs.consistent.isParameter_of_reads (Universe.reads_typeAt (hknown arg harg))]
    exact hparam _ (List.mem_map_of_mem harg)
  obtain ⟨d, hd, harity, hne⟩ := hs.consistent.exists_catalog_of_reads ht
  obtain ⟨definition, hown, -⟩ := hs.owned hd
  rw [satisfy, run_view_bind, run_view_bind, if_pos rfl, run_bind, matchArguments_self hargs]
  dsimp only
  rw [run_view_bind, hs.consistent.definition?_of_reads ht, hown]
  obtain ⟨-, ty, hty, -⟩ := makeGeneric_ensures hs.consistent hs.owned hd hown harity hne hbs
    s.chronicle.journal
  show (makeGeneric definition (s.univ.arguments target) s.chronicle).1.isSome
  rw [hty]
  rfl

/-- So a candidate is found if the target is one. -/
theorem firstSatisfying_of_mem (hC : S.Passes C) (hn : Carries S C nested) {candidates : List Handle}
    (hs : Passing S C s) (hown : s.univ.ownType? decl = some definition)
    (hcs : List.Forall₂ s.univ.Reads candidates cs) (ht : s.univ.Reads target (.applied decl bs))
    (hparam : ∀ b ∈ bs, b.isParam = false) (hmem : target ∈ candidates) :
    (firstSatisfying nested definition target candidates s).1.isSome := by
  induction candidates generalizing s cs with
  | nil => cases hmem
  | cons candidate candidates ih =>
    obtain ⟨c, cs, hc, hrest, rfl⟩ := List.forall₂_cons_left_iff.1 hcs
    obtain ⟨d, hd, -⟩ := hs.consistent.exists_catalog_of_reads ht
    have hdef := hs.consistent.definition?_eq_some_iff hs.owned hd hown hc
    rw [firstSatisfying, run_view_bind]
    split_ifs with hbuilt
    · rw [run_bind]
      obtain ⟨as, rfl⟩ := Ty.isBuiltFrom_iff.1 (hdef.1 hbuilt)
      have hp := (satisfy_keeps hC hn hs hc ht).1
      cases hr : (satisfy nested candidate target s).1 with
      | some ty => rfl
      | none =>
        have hne : target ≠ candidate := by
          rintro rfl
          have hself : (satisfy nested target target s).1.isSome := satisfy_self hs ht hparam
          rw [hr] at hself
          cases hself
        exact ih hp.after (by rw [hp.grows.ownType?, hown]) (hp.grows.forall₂_reads hrest)
          (hp.grows.reads ht) ((List.mem_cons.1 hmem).resolve_left hne)
    · have hne : target ≠ candidate := by
        rintro rfl
        refine hbuilt ?_
        rw [hs.consistent.definition?_of_reads ht, hown]
      exact ih hs hown hrest ht ((List.mem_cons.1 hmem).resolve_left hne)

/-- A source that has the target among its interfaces gets an answer. -/
theorem resolveInterface_of_mem (hC : S.Passes C) (hn : Carries S C nested) (hs : Passing S C s)
    (hown : s.univ.ownType? decl = some definition) (ha : s.univ.Reads source a)
    (ht : s.univ.Reads target (.applied decl bs)) (hparam : ∀ b ∈ bs, b.isParam = false)
    (hmem : .applied decl bs ∈ S.closureOf a) :
    (resolveInterface nested definition source target s).1.isSome := by
  have hp := (firstSatisfying_keeps hC hn hs hown (.cons ha .nil) ht).1
  rw [resolveInterface, run_bind]
  cases hr : (firstSatisfying nested definition target [source] s).1 with
  | some ty => rfl
  | none =>
    dsimp only
    rw [run_bind]
    obtain ⟨hp', hclosure⟩ := Keeps.lift hp.after (interfaces_simple source).quiet
      (interfaces_ensures hp.after.consistent (hp.grows.reads ha))
    rw [hp.after.signature] at hclosure
    have hg := (hp.trans hp').grows
    exact firstSatisfying_of_mem hC hn hp'.after (by rw [hg.ownType?, hown]) hclosure (hg.reads ht)
      hparam ((hp'.after.consistent.mem_iff_of_reads hclosure (hg.reads ht)).2 hmem)

/-- A pair that is not on record is answered by what was computed for it. -/
theorem settle_of_unrecorded {place before : Nat} {around : Option Nat} {computed : Option Handle}
    (h : s.verdicts.entries[pair]? = none) :
    (settle pair place around before computed s).1 = computed := by
  by_cases hw : s.provisional place ∨ s.refusals ≠ before
  · obtain ⟨j, hj⟩ := @settle_of_withheld s pair place before around computed hw
    rw [hj]
  · rw [not_or, Bool.not_eq_true, not_not] at hw
    obtain ⟨hprov, rfl⟩ := hw
    obtain ⟨j, hj⟩ := @settle_of_recorded s pair place around computed hprov
    rw [hj, Verdicts.record, h]
    exact Verdict.substitution?_ofSubstitution computed

/-- The first question of a search, if about one of the interfaces of the source, is answered. -/
theorem evaluate_of_mem_closureOf (hs : Passing S (fun _ => True) s)
    (hguard : s.guard = .new s.guard.limits) (hdepth : 0 < s.guard.limits.depth)
    (hsteps : 0 < s.guard.limits.steps) (hnew : s.verdicts.entries[pair]? = none)
    (ha : s.univ.Reads pair.source a) (ht : s.univ.Reads pair.target (.applied decl bs))
    (hi : S.isInterface (.applied decl bs)) (hparam : ∀ b ∈ bs, b.isParam = false)
    (hmem : .applied decl bs ∈ S.closureOf a) : (evaluate (levels + 1) pair s).1.isSome := by
  have hpush : Passing S (fun _ => True) (s.pushed pair 1) :=
    ⟨hs.consistent, hs.owned, hs.signature, hs.entries⟩
  have hn : Carries S (fun _ => True) (substituteBy (evaluate levels)) :=
    substituteBy_carries (evaluate_carries .trivial levels)
  have hentry : (resolve (substituteBy (evaluate levels)) pair.source pair.target
      (s.pushed pair 1)).2.verdicts.entries[pair]? = none := by
    rw [((resolve_accounts (substituteBy_accounts (evaluate_accounts levels)) pair.source
      pair.target).2 (s.pushed pair 1)).entries pair Std.HashSet.mem_insert_self]
    exact hnew
  obtain ⟨d, hd, -⟩ := hs.consistent.exists_catalog_of_reads ht
  obtain ⟨definition, hown, -⟩ := hs.owned hd
  have hgeneric : (s.pushed pair 1).univ.isGeneric pair.target = true :=
    hs.consistent.isGeneric_of_reads ht
  have hinterface : (s.pushed pair 1).univ.isInterface pair.target = true := by
    show s.univ.isInterface pair.target = true
    rw [hs.consistent.isInterface_of_reads ht, hs.signature, hi]
  have hdef : (s.pushed pair 1).univ.definition? pair.target = some definition :=
    (hs.consistent.definition?_of_reads ht).trans hown
  rw [evaluate_of_pushed (enter_of_new hguard hdepth hsteps), settle_of_unrecorded hentry, resolve,
    run_view_bind, if_pos hgeneric, run_view_bind, hdef]
  dsimp only
  rw [run_view_bind, if_pos hinterface]
  exact resolveInterface_of_mem .trivial hn hpush hown ha ht hparam hmem

end Search

namespace Solver

variable {S : Signature} {s : Solver} {source target : Handle} {limits : Limits}

/-- A query about no generic interface is not flagged. -/
theorem query_of_not_interface (hdepth : 0 < limits.depth) (hsteps : 0 < limits.steps)
    (h : s.univ.isGeneric target = false ∨ s.univ.isInterface target = false) :
    (Solver.query limits (some source) (some target) s).1.depthExceeded = false := by
  obtain ⟨j, e, -, -, hrun⟩ := run_query (some source) (some target) s
  rw [hrun]
  dsimp only
  by_cases heq : source = target
  · rw [Search.check_some, if_pos heq]
    rfl
  · cases hfound : s.verdicts.entries[(⟨source, target⟩ : Pair)]? with
    | some verdict => rw [Search.check_of_recorded heq hfound]
    | none =>
      obtain ⟨depth, steps⟩ := limits
      obtain ⟨levels, rfl⟩ := Nat.exists_eq_add_one.2 hdepth
      rw [Search.check_of_unrecorded heq hfound]
      exact Search.evaluate_of_not_interface rfl hdepth hsteps h

/-- A query about one of the interfaces of the source is answered. -/
theorem Exact.query_of_mem_closureOf (hs : s.Exact S) (hdepth : 0 < limits.depth)
    (hsteps : 0 < limits.steps) (hnew : s.verdicts.entries[(⟨source, target⟩ : Pair)]? = none)
    (hne : source ≠ target) {a : Ty} {decl : DeclId} {bs : List Ty} (ha : s.univ.Reads source a)
    (ht : s.univ.Reads target (.applied decl bs)) (hi : S.isInterface (.applied decl bs))
    (hparam : ∀ b ∈ bs, b.isParam = false) (hmem : .applied decl bs ∈ S.closureOf a) :
    (Solver.query limits (some source) (some target) s).1.isRelated := by
  obtain ⟨j, e, -, -, hrun⟩ := run_query (some source) (some target) s
  obtain ⟨depth, steps⟩ := limits
  obtain ⟨levels, rfl⟩ := Nat.exists_eq_add_one.2 hdepth
  rw [hrun, Search.check_of_unrecorded hne hnew]
  have hp := (Search.Keeps.lookup ((hs.journal j).passing ⟨levels + 1, steps⟩) ⟨source, target⟩).1
  refine Search.evaluate_of_mem_closureOf hp.after rfl hdepth hsteps ?_ ha ht hi hparam hmem
  show (s.verdicts.lookup ⟨source, target⟩).2.entries[(⟨source, target⟩ : Pair)]? = none
  rw [Verdicts.entries_lookup, hnew]

/-- A query about a generic interface that the source is assignable to is answered. -/
theorem Exact.query_of_isAssignable (hs : s.Exact S) (hdepth : 0 < limits.depth)
    (hsteps : 0 < limits.steps) {a : Ty} {decl : DeclId} {bs : List Ty} (ha : s.univ.Reads source a)
    (ht : s.univ.Reads target (.applied decl bs)) (hi : S.isInterface (.applied decl bs))
    (hparam : ∀ b ∈ bs, b.isParam = false) (hsub : S.Sub a (.applied decl bs))
    (h : S.isAssignable a (.applied decl bs)) :
    (Solver.query limits (some source) (some target) s).1.isRelated := by
  by_cases heq : source = target
  · obtain ⟨j, e, -, -, hrun⟩ := run_query (some source) (some target) s
    rw [hrun, Search.check_some, if_pos heq]
    rfl
  · cases hfound : s.verdicts.entries[(⟨source, target⟩ : Pair)]? with
    | some verdict =>
      obtain ⟨-, hreply⟩ := hs.query limits ha ht
      exact (hreply.isRelated_iff (by rw [query_of_recorded heq hfound])).2 hsub
    | none =>
      have hmem : .applied decl bs ∈ S.closureOf a := by
        refine (List.mem_cons.1 (Signature.mem_closureOf_of_isAssignable hi h)).resolve_left ?_
        exact fun he => heq ((hs.consistent.eq_iff_of_reads ha ht).2 he.symm)
      exact hs.query_of_mem_closureOf hdepth hsteps hfound heq ha ht hi hparam hmem

/-- Under limits that let one question in, a type without parameters can stand for every type without
parameters that it is natively assignable to: for a target that is not generic, for these alone and as
it is, and for another application of a class or struct as just that. -/
theorem Served.assignable_related {c : Chronicle} (hc : c.univ.Built) (hs : s.Served c)
    (hdepth : 1 ≤ limits.depth) (hsteps : 1 ≤ limits.steps) (source target : Handle)
    (hsource : s.univ.contains source) (htarget : s.univ.contains target)
    (hclosed : s.univ.isOpen source = false) (hclosed' : s.univ.isOpen target = false) :
    let assignable := (UniverseM.isAssignable source target s.chronicle).1
    let answer := (Solver.query limits (some source) (some target) s).1
    (assignable → answer.isRelated) ∧
    (s.univ.isGeneric target = false →
      (answer.isRelated ↔ assignable) ∧ (assignable → answer.substitution = some source)) ∧
    (s.univ.isGeneric target → s.univ.isBaseKind target → assignable → source ≠ target →
      answer.substitution = some target) := by
  intro assignable answer
  obtain ⟨hexact, hgrows⟩ := hs.exact hc.valid
  have hscoped := hc.scoped
  rw [← hgrows.signature] at hexact hscoped
  rw [← hgrows.arity] at hscoped
  have hu := hexact.consistent
  have ha := Universe.reads_typeAt hsource
  have hb := Universe.reads_typeAt htarget
  have hassignable : assignable = s.univ.signature.isAssignable _ _ :=
    hu.describes.isAssignable hsource htarget
  generalize s.univ.typeAt source = a at ha hassignable
  generalize s.univ.typeAt target = b at hb hassignable
  rw [hu.isOpen_of_reads ha] at hclosed
  rw [hu.isOpen_of_reads hb] at hclosed'
  have hconcrete := hu.concrete_of_reads ha hclosed
  have hconcrete' := hu.concrete_of_reads hb hclosed'
  have hsub : assignable → s.univ.signature.Sub a b := by
    intro h
    exact hscoped.sub_of_isAssignable hclosed hconcrete
      (hu.isSome_kindOf? hb hconcrete'.isParam_eq_false) (hassignable ▸ h)
  obtain ⟨hadv, hreply⟩ := hexact.query limits ha hb
  have hexc : s.univ.isGeneric target = false ∨ s.univ.isInterface target = false →
      answer.depthExceeded = false := query_of_not_interface hdepth hsteps
  have hresolved : ∀ {ty t}, s.univ.Reads ty t → s.univ.signature.res a b = some t →
      answer.depthExceeded = false → answer.substitution = some ty := by
    intro ty t hty hres hexc
    exact (hu.rel_reads_injective hadv.exact.consistent hadv.grows.table (.some hty)
      (hres ▸ hreply.resolved hexc)).symm
  refine ⟨fun h => ?_, fun hgeneric => ⟨⟨fun h => ?_, fun h => ?_⟩, fun h => ?_⟩,
    fun hgeneric hkind h hne => ?_⟩
  · by_cases hinterface : s.univ.isGeneric target = false ∨ s.univ.isInterface target = false
    · exact (hreply.isRelated_iff (hexc hinterface)).2 (hsub h)
    · rw [hu.isGeneric_of_reads hb, hu.isInterface_of_reads hb, not_or, Bool.not_eq_false,
        Bool.not_eq_false] at hinterface
      obtain ⟨hgeneric, hi⟩ := hinterface
      cases b with
      | plain _ => cases hgeneric
      | param _ _ => cases hgeneric
      | applied decl bs =>
        exact hexact.query_of_isAssignable hdepth hsteps ha hb hi hconcrete'.2 (hsub h)
          (hassignable ▸ h)
  · have hsub := hreply.related h
    rw [hu.isGeneric_of_reads hb] at hgeneric
    rw [hassignable]
    rcases (Signature.follows_iff_of_isGeneric_eq_false hgeneric).1 (Signature.sub_iff_follows.1 hsub)
      with rfl | ⟨-, h⟩
    · exact Signature.isAssignable_self a
    · exact h
  · exact (hreply.isRelated_iff (hexc (Or.inl hgeneric))).2 (hsub h)
  · refine hresolved ha ?_ (hexc (Or.inl hgeneric))
    rw [hu.isGeneric_of_reads hb] at hgeneric
    rw [Signature.res_of_isGeneric_eq_false _ _ hgeneric, if_pos (Or.inr ⟨hclosed, hassignable ▸ h⟩)]
  · obtain ⟨head, hhead⟩ := hconcrete.exists_head?
    rw [hu.isBaseKind_of_reads hb] at hkind
    refine hresolved hb (hu.res_of_isAssignable hhead ?_ hkind ?_ (hassignable ▸ h)) (hexc (Or.inr ?_))
    · rwa [hu.isGeneric_of_reads hb] at hgeneric
    · exact fun heq => hne ((hu.eq_iff_of_reads ha hb).2 heq)
    · rw [hu.isInterface_of_reads hb, Bool.eq_false_iff]
      intro hi
      rw [Signature.isBaseKind_eq_false_of_isInterface hi] at hkind
      cases hkind

/-- Here `X` stands for its interface `D<D<X>>` when one question is let in, and no other. -/
theorem Served.assignable_related_selfBounded :
    (UniverseM.isAssignable ⟨3⟩ ⟨5⟩ .selfBounded).1 ∧
      (Solver.query ⟨1, 1⟩ (some ⟨3⟩) (some ⟨5⟩) ⟨.selfBounded, {}⟩).1.isRelated := by
  have hassignable : (UniverseM.isAssignable ⟨3⟩ ⟨5⟩ .selfBounded).1 = true := by cbv
  obtain ⟨hrelated, -, -⟩ := @Served.assignable_related ⟨.selfBounded, {}⟩ ⟨1, 1⟩ .selfBounded
    Chronicle.built_selfBounded .new (by decide) (by decide) ⟨3⟩ ⟨5⟩ (by cbv) (by cbv) (by cbv) (by cbv)
  exact ⟨hassignable, hrelated hassignable⟩

end Solver

end Subtyping
