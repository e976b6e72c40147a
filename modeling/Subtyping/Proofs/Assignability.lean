import Subtyping.Proofs.Reachability

/-!
# Native assignability is going up

A type is natively assignable to what is reached from it by going up, from a type to its base or to one
of the interfaces that it declares, and to nothing else
(`Signature.WithinReach.isAssignable_iff_reaches`). Every step up lowers the height of a type
(`Universe.Consistent.height_lt_of_above`): no declaration inherits from itself, and a parameter is
higher than all that is declared. So native assignability is an order on the known types
(`UniverseM.isAssignable_iff_reached`).

In a universe in use, going up asks for the base or the declared interfaces of a type
(`UniverseM.StepsUp`), which may add types. What a parameter is assignable to follows from its first
step: a parameter goes up to its bounds that are interfaces and to the first one that is a class or
struct (`UniverseM.parameter_assignable`). Other bounds are passed over, so a parameter need not be
assignable to its bounds (`UniverseM.not_forall_bound_assignable`).
-/

namespace Subtyping

open Relation

namespace Signature

variable {S : Signature} {a b t x : Ty} {rank : DeclId → Nat}

/-! ## Going up -/

theorem reaches_of_mem_chain (h : x ∈ S.chain t) : ReflTransGen S.Above t x :=
  forall_mem_chainFrom (P := ReflTransGen S.Above t) (fun _ _ ht hb => ht.tail (Or.inl hb)) .refl x h

/-- The interfaces of a type are reached from it in one step or more. -/
theorem transGen_of_mem_closureOf : ∀ x ∈ S.closureOf t, TransGen S.Above t x := by
  refine List.foldlRecOn (motive := fun acc => ∀ x ∈ acc, TransGen S.Above t x) _ _ (by simp)
    fun acc hacc ancestor hanc => ?_
  have hreach := reaches_of_mem_chain (List.mem_reverse.1 hanc)
  refine List.foldlRecOn (motive := fun acc => ∀ x ∈ acc, TransGen S.Above t x) _ _ hacc
    fun acc hacc i hi => ?_
  exact forall_mem_collect (fun _ _ ht hj => ht.tail (Or.inr hj)) hacc (.tail' hreach (Or.inr hi))

theorem reaches_of_isAssignable (h : S.isAssignable a b) : ReflTransGen S.Above a b := by
  rw [isAssignable, Bool.or_eq_true, beq_iff_eq] at h
  rcases h with rfl | h
  · exact .refl
  · split at h
    · exact (transGen_of_mem_closureOf b (List.contains_iff_mem.1 h)).to_reflTransGen
    · exact reaches_of_mem_chain (List.contains_iff_mem.1 h)
    · exact reaches_of_mem_chain (List.contains_iff_mem.1 h)
    · cases h

theorem isSome_kindOf?_of_isBaseKind (h : S.isBaseKind t) : (S.kindOf? t).isSome := by
  cases hk : S.kindOf? t with
  | none => simp [isBaseKind, hk] at h
  | some kind => rfl

theorem isSome_kindOf?_of_isInterface (h : S.isInterface t) : (S.kindOf? t).isSome := by
  rw [isInterface, beq_iff_eq] at h
  rw [h]
  rfl

/-- Whatever lies above a type is a class, a struct or an interface. -/
theorem WellKinded.isSome_kindOf?_of_above (hS : S.WellKinded) (h : S.Above t x) :
    (S.kindOf? x).isSome := by
  rcases h with hbase | hdeclared
  · exact isSome_kindOf?_of_isBaseKind (hS.isBaseKind_of_baseOf hbase)
  · exact isSome_kindOf?_of_isInterface (hS.isInterface_of_mem_declaredBy hdeclared)

/-- A type is natively assignable to all that is reached from it by going up, and to nothing else. -/
theorem WithinReach.isAssignable_iff_reaches (hreach : S.WithinReach) (hS : S.WellKinded)
    (hr : S.Ranking rank) : S.isAssignable a b ↔ ReflTransGen S.Above a b := by
  refine ⟨reaches_of_isAssignable, fun h => ?_⟩
  rcases h.cases_tail with rfl | ⟨x, -, hx⟩
  · exact isAssignable_self _
  · exact hreach.isAssignable_of_reaches hS hr h (hS.isSome_kindOf?_of_above hx)

end Signature

theorem exists_of_forall₂_of_mem {α β : Type} {R : α → β → Prop} {l : List α} {m : List β}
    (h : List.Forall₂ R l m) {a : α} (ha : a ∈ l) : ∃ b ∈ m, R a b := by
  obtain ⟨i, hi⟩ := List.mem_iff_getElem?.1 ha
  obtain ⟨b, hb, hab⟩ := exists_of_forall₂_of_getElem? h hi
  exact ⟨b, List.mem_of_getElem? hb, hab⟩

namespace Universe

variable {u : Universe} {a b t x : Ty}

theorem exists_shape?_of_isParameter {ty : Handle} (h : u.isParameter ty) :
    ∃ owner index, u.shape? ty = some (.param owner index) := by
  unfold isParameter at h
  split at h
  · exact ⟨_, _, ‹_›⟩
  · cases h

/-! ## No way up leads back -/

/-- The rank of the declaration that heads a type; parameters are higher than all declarations. -/
noncomputable def height (u : Universe) (t : Ty) : Nat :=
  match t.head? with
  | some decl => u.rank decl
  | none => u.catalog.size

theorem height_of_head? {decl : DeclId} (h : t.head? = some decl) : u.height t = u.rank decl := by
  rw [height, h]

/-- A class, struct or interface is less high than a parameter. -/
theorem Consistent.height_lt_size (hu : u.Consistent) (h : (u.signature.kindOf? t).isSome) :
    u.height t < u.catalog.size := by
  cases hhead : t.head? with
  | none => simp [Signature.kindOf?, hhead] at h
  | some decl =>
    rw [height_of_head? hhead]
    rw [Signature.kindOf?, hhead, Option.bind_some] at h
    cases hd : u.catalog.get? decl with
    | none => simp [signature, hd] at h
    | some d => exact hu.rank_lt_size (mem_declIds_of_get? hd)

/-- Every step up leads to a lower type. -/
theorem Consistent.height_lt_of_above (hu : u.Consistent) (hS : u.signature.WellKinded)
    (h : u.signature.Above t x) : u.height x < u.height t := by
  cases hhead : t.head? with
  | none =>
    rw [show u.height t = u.catalog.size by rw [height, hhead]]
    exact hu.height_lt_size (hS.isSome_kindOf?_of_above h)
  | some decl =>
    rw [height_of_head? hhead]
    rcases h with hbase | hdeclared
    · obtain ⟨parent, hp, hinherits⟩ := hu.inherits_of_baseOf hhead hbase
      rw [height_of_head? hp]
      exact hu.rank_lt_of_inherits hinherits
    · obtain ⟨parent, hp, hlt⟩ := hu.exists_ranking.lt_of_mem_declaredBy hhead hdeclared
      rwa [height_of_head? hp]

theorem Consistent.height_lt_of_transGen (hu : u.Consistent) (hS : u.signature.WellKinded)
    (h : TransGen u.signature.Above t x) : u.height x < u.height t := by
  induction h with
  | single h => exact hu.height_lt_of_above hS h
  | tail _ h ih => exact (hu.height_lt_of_above hS h).trans ih

/-- Two types that are reached from each other are the same. -/
theorem Consistent.eq_of_reaches (hu : u.Consistent) (hS : u.signature.WellKinded)
    (h : ReflTransGen u.signature.Above a b) (h' : ReflTransGen u.signature.Above b a) : a = b := by
  rcases reflTransGen_iff_eq_or_transGen.1 h with rfl | h
  · rfl
  · rcases reflTransGen_iff_eq_or_transGen.1 h' with rfl | h'
    · rfl
    · exact absurd (hu.height_lt_of_transGen hS h) (hu.height_lt_of_transGen hS h').asymm

end Universe

namespace UniverseM

open Universe

/-! ## Going up in a universe in use -/

/-- One step up: to the base of a type, or to an interface that it declares. Asking for them may add
types. -/
inductive StepsUp : Chronicle × Handle → Chronicle × Handle → Prop where
  | base {c : Chronicle} {ty up : Handle} (h : (baseType ty c).1 = some up) :
      StepsUp (c, ty) ((baseType ty c).2, up)
  | interface {c : Chronicle} {ty up : Handle} (h : up ∈ (declaredInterfaces ty c).1) :
      StepsUp (c, ty) ((declaredInterfaces ty c).2, up)

variable {c : Chronicle} {ty source target : Handle} {t up : Ty} {p q : Chronicle × Handle}

/-- A step up on handles is a step up on trees. -/
theorem StepsUp.above (h : StepsUp p q) (hc : p.1.univ.Consistent) (ht : p.1.univ.Reads p.2 t) :
    p.1.univ.Grows q.1.univ ∧ ∃ up, q.1.univ.Reads q.2 up ∧ p.1.univ.signature.Above t up := by
  cases h with
  | @base c ty up h =>
    obtain ⟨hg, hrel⟩ := baseType_ensures hc ht c.journal
    refine ⟨hg, ?_⟩
    change Option.Rel _ (baseType ty c).1 _ at hrel
    rw [h] at hrel
    generalize hbase : c.univ.signature.baseOf t = base at hrel
    cases hrel with
    | some hup => exact ⟨_, hup, Or.inl hbase⟩
  | @interface c ty up h =>
    obtain ⟨hg, hreads⟩ := declaredInterfaces_ensures hc ht c.journal
    obtain ⟨t', ht', hup⟩ := exists_of_forall₂_of_mem hreads h
    exact ⟨hg, t', hup, Or.inr ht'⟩

/-- A step up on trees can be taken on handles. -/
theorem exists_stepsUp (hc : c.univ.Consistent) (ht : c.univ.Reads ty t)
    (h : c.univ.signature.Above t up) : ∃ q, StepsUp (c, ty) q ∧ q.1.univ.Reads q.2 up := by
  rcases h with hbase | hdeclared
  · obtain ⟨-, hrel⟩ := baseType_ensures hc ht c.journal
    change Option.Rel _ (baseType ty c).1 _ at hrel
    rw [hbase] at hrel
    generalize hty : (baseType ty c).1 = r at hrel
    cases hrel with
    | some hup => exact ⟨_, .base hty, hup⟩
  · obtain ⟨-, hreads⟩ := declaredInterfaces_ensures hc ht c.journal
    obtain ⟨ty', hty', hup⟩ := exists_of_forall₂_of_mem hreads.flip hdeclared
    exact ⟨_, .interface hty', hup⟩

theorem reaches_of_stepsUp (hc : c.univ.Consistent) (ht : c.univ.Reads ty t)
    (h : ReflTransGen StepsUp (c, ty) q) :
    c.univ.Grows q.1.univ ∧
      ∃ up, q.1.univ.Reads q.2 up ∧ ReflTransGen c.univ.signature.Above t up := by
  induction h with
  | refl => exact ⟨.refl hc, t, ht, .refl⟩
  | tail _ hstep ih =>
    obtain ⟨hg, x, hx, hreach⟩ := ih
    obtain ⟨hg', up, hup, habove⟩ := hstep.above hg.after hx
    rw [hg.signature] at habove
    exact ⟨hg.trans hg', up, hup, hreach.tail habove⟩

theorem exists_reached (hc : c.univ.Consistent) (ht : c.univ.Reads ty t)
    (h : ReflTransGen c.univ.signature.Above t up) :
    ∃ q, ReflTransGen StepsUp (c, ty) q ∧ c.univ.Grows q.1.univ ∧ q.1.univ.Reads q.2 up := by
  induction h with
  | refl => exact ⟨(c, ty), .refl, .refl hc, ht⟩
  | tail _ habove ih =>
    obtain ⟨q, hreach, hg, hq⟩ := ih
    rw [← hg.signature] at habove
    obtain ⟨q', hstep, hq'⟩ := exists_stepsUp hg.after hq habove
    exact ⟨q', hreach.tail hstep, hg.trans (hstep.above hg.after hq).1, hq'⟩

section Built

variable (hc : c.univ.Built) (hreach : c.univ.WithinReach)
include hc hreach

theorem isAssignable_iff_reaches (hsource : c.univ.contains source)
    (htarget : c.univ.contains target) :
    (isAssignable source target c).1 ↔
      ReflTransGen c.univ.signature.Above (c.univ.typeAt source) (c.univ.typeAt target) := by
  have hu := hc.valid.consistent
  rw [hu.describes.isAssignable hsource htarget]
  exact (hc.withinReach hreach).isAssignable_iff_reaches hc.wellKinded hu.exists_ranking

theorem isAssignable_iff_stepsUp (hsource : c.univ.contains source)
    (htarget : c.univ.contains target) :
    (isAssignable source target c).1 ↔ ∃ c', ReflTransGen StepsUp (c, source) (c', target) := by
  have hu := hc.valid.consistent
  have hs := reads_typeAt hsource
  have ht := reads_typeAt htarget
  rw [isAssignable_iff_reaches hc hreach hsource htarget]
  constructor
  · intro h
    obtain ⟨q, hq, hg, hr⟩ := exists_reached hu hs h
    obtain rfl : q.2 = target := hg.after.reads_injective hr (hg.reads ht)
    exact ⟨q.1, hq⟩
  · rintro ⟨c', h⟩
    obtain ⟨hg, up, hup, hreaches⟩ := reaches_of_stepsUp hu hs h
    obtain rfl : c.univ.typeAt target = up := (hg.reads ht).2.symm.trans hup.2
    exact hreaches

/-- Where base chains end within the reach of a walk, a known type is natively assignable to just the
known types that are reached from it by going up. So this is an order on the known types. -/
theorem isAssignable_iff_reached :
    (∀ source target, c.univ.contains source → c.univ.contains target →
      ((isAssignable source target c).1 ↔ ∃ c', ReflTransGen StepsUp (c, source) (c', target))) ∧
    (∀ ty, c.univ.contains ty → (isAssignable ty ty c).1) ∧
    (∀ source middle target, c.univ.contains source → c.univ.contains middle →
      c.univ.contains target → (isAssignable source middle c).1 → (isAssignable middle target c).1 →
        (isAssignable source target c).1) ∧
    ∀ source target, c.univ.contains source → c.univ.contains target →
      (isAssignable source target c).1 → (isAssignable target source c).1 → source = target := by
  refine ⟨fun source target => isAssignable_iff_stepsUp hc hreach, fun ty hty => ?_,
    fun source middle target hs hm ht h h' => ?_, fun source target hs ht h h' => ?_⟩
  · exact (isAssignable_iff_reaches hc hreach hty hty).2 .refl
  · have hlower := (isAssignable_iff_reaches hc hreach hs hm).1 h
    have hupper := (isAssignable_iff_reaches hc hreach hm ht).1 h'
    exact (isAssignable_iff_reaches hc hreach hs ht).2 (hlower.trans hupper)
  · have hu := hc.valid.consistent
    have hsame := hu.eq_of_reaches hc.wellKinded ((isAssignable_iff_reaches hc hreach hs ht).1 h)
      ((isAssignable_iff_reaches hc hreach ht hs).1 h')
    exact hu.reads_injective (reads_typeAt hs) ⟨ht, hsame.symm⟩

end Built

/-- An interface `Seq<T>`, a class `Base<T>` that lists `Seq<T>`, and a class `Text` with the base
`Base<Text>`. Of the types, the last three are `Text`, `Base<Text>` and `Seq<Text>`. -/
def layered : Chronicle :=
  Operation.runAll
    [.declare (.bare .interfaceKind "Seq" ["T"]), .declare (.bare .classKind "Base" ["T"]),
      .apply ⟨2⟩ [⟨3⟩], .addInterface ⟨4⟩ ⟨5⟩, .declare (.bare .classKind "Text" []), .apply ⟨4⟩ [⟨6⟩],
      .setBase ⟨6⟩ ⟨7⟩, .apply ⟨2⟩ [⟨6⟩]] .fresh

theorem built_layered : layered.univ.Built :=
  Operation.built_runAll .empty (by cbv)

/-- `Text` goes up to `Seq<Text>`, over its base and with the argument put for the parameter there. There
is no way back. -/
theorem isAssignable_iff_reached_layered :
    layered.univ.WithinReach ∧ (∃ c', ReflTransGen StepsUp (layered, ⟨6⟩) (c', ⟨8⟩)) ∧
      ¬ ∃ c', ReflTransGen StepsUp (layered, ⟨8⟩) (c', ⟨6⟩) := by
  have hreach : layered.univ.WithinReach :=
    built_layered.valid.consistent.withinReach (of_decide_eq_true (by cbv))
  have hknown : layered.univ.contains ⟨6⟩ := by cbv
  have hknown' : layered.univ.contains ⟨8⟩ := by cbv
  have hup : (isAssignable ⟨6⟩ ⟨8⟩ layered).1 := by cbv
  obtain ⟨hiff, -, -, hantisymm⟩ := isAssignable_iff_reached built_layered hreach
  refine ⟨hreach, (hiff _ _ hknown hknown').1 hup, fun hback => ?_⟩
  have hsame := hantisymm _ _ hknown hknown' hup ((hiff _ _ hknown' hknown).2 hback)
  cases hsame

/-! ## Parameters -/

section Parameters

variable {param bound : Handle}

/-- The first step up from a parameter leads to one of its bounds. -/
theorem stepsUp_of_isParameter (hparam : c.univ.isParameter param) :
    StepsUp (c, param) q ↔ q.1 = c ∧ q.2 ∈ c.univ.constraints param ∧
      (c.univ.isInterface q.2 ∨ (c.univ.constraints param).find? c.univ.isBaseKind = some q.2) := by
  obtain ⟨owner, index, hshape⟩ := exists_shape?_of_isParameter hparam
  have hbase : baseType param c = ((c.univ.constraints param).find? c.univ.isBaseKind, c) := by
    rw [baseType, run_view_bind, id, hshape]
    rfl
  have hinterfaces :
      declaredInterfaces param c = ((c.univ.constraints param).filter c.univ.isInterface, c) := by
    rw [declaredInterfaces, run_view_bind, id, hshape]
    rfl
  constructor
  · intro h
    cases h with
    | base h =>
      rw [hbase] at h ⊢
      exact ⟨rfl, List.mem_of_find?_eq_some h, Or.inr h⟩
    | interface h =>
      rw [hinterfaces] at h ⊢
      obtain ⟨hmem, hkind⟩ := List.mem_filter.1 h
      exact ⟨rfl, hmem, Or.inl hkind⟩
  · obtain ⟨c', up⟩ := q
    rintro ⟨rfl, hmem, hkind | hfirst⟩
    · have h : StepsUp (c', param) ((declaredInterfaces param c').2, up) :=
        .interface (by rw [hinterfaces]; exact List.mem_filter.2 ⟨hmem, hkind⟩)
      rwa [hinterfaces] at h
    · have h : StepsUp (c', param) ((baseType param c').2, up) := .base (by rw [hbase]; exact hfirst)
      rwa [hbase] at h

/-- The bounds of a parameter are known. -/
theorem contains_of_mem_constraints (hu : c.univ.Consistent) (hparam : c.univ.isParameter param)
    (h : bound ∈ c.univ.constraints param) : c.univ.contains bound := by
  obtain ⟨owner, index, hshape⟩ := exists_shape?_of_isParameter hparam
  exact (forall₂_reads_iff.1 (hu.constraints_of_reads (hu.reads_param hshape))).1 bound h

/-- A parameter is natively assignable to itself, to what its bounds that are interfaces are assignable
to, and to what its first bound that is a class or struct is assignable to. -/
theorem parameter_assignable (hc : c.univ.Built) (hreach : c.univ.WithinReach) (param : Handle)
    (hparam : c.univ.isParameter param) (ty : Handle) (hty : c.univ.contains ty) :
    (isAssignable param ty c).1 ↔ param = ty ∨ ∃ bound ∈ c.univ.constraints param,
      (c.univ.isInterface bound ∨ (c.univ.constraints param).find? c.univ.isBaseKind = some bound) ∧
        (isAssignable bound ty c).1 := by
  have hu := hc.valid.consistent
  obtain ⟨owner, index, hshape⟩ := exists_shape?_of_isParameter hparam
  have hknown : c.univ.contains param := contains_of_shape? hshape
  have hbounds : ∀ bound ∈ c.univ.constraints param, ((isAssignable bound ty c).1 ↔
      ∃ c', ReflTransGen StepsUp (c, bound) (c', ty)) := fun bound hb =>
    isAssignable_iff_stepsUp hc hreach (contains_of_mem_constraints hu hparam hb) hty
  rw [isAssignable_iff_stepsUp hc hreach hknown hty]
  constructor
  · rintro ⟨c', h⟩
    rcases h.cases_head with heq | ⟨q, hstep, hrest⟩
    · exact Or.inl (congrArg Prod.snd heq)
    · obtain ⟨hsame, hmem, hkind⟩ := (stepsUp_of_isParameter hparam).1 hstep
      obtain ⟨c₁, bound⟩ := q
      cases hsame
      exact Or.inr ⟨bound, hmem, hkind, (hbounds bound hmem).2 ⟨c', hrest⟩⟩
  · rintro (rfl | ⟨bound, hmem, hkind, h⟩)
    · exact ⟨c, .refl⟩
    · obtain ⟨c', hrest⟩ := (hbounds bound hmem).1 h
      exact ⟨c', .head ((stepsUp_of_isParameter hparam).2 ⟨rfl, hmem, hkind⟩) hrest⟩

end Parameters

/-- Classes `A` and `B`, and an interface `D<T>` that bounds `T` by both. The types are `A`, `B`, `T` and
`D<T>`, in this order. -/
def doublyBounded : Chronicle :=
  Operation.runAll
    [.declare (.bare .classKind "A" []), .declare (.bare .classKind "B" []),
      .declare (.bare .interfaceKind "D" ["T"]), .addConstraint ⟨3⟩ ⟨1⟩, .addConstraint ⟨3⟩ ⟨2⟩] .fresh

theorem built_doublyBounded : doublyBounded.univ.Built :=
  Operation.built_runAll .empty (by cbv)

theorem withinReach_doublyBounded : doublyBounded.univ.WithinReach :=
  built_doublyBounded.valid.consistent.withinReach (of_decide_eq_true (by cbv))

theorem constraints_doublyBounded : doublyBounded.univ.constraints ⟨3⟩ = [⟨1⟩, ⟨2⟩] := by
  cbv

/-- `T` is assignable to `A`, its first bound. -/
theorem parameter_assignable_doublyBounded :
    doublyBounded.univ.WithinReach ∧ doublyBounded.univ.isParameter ⟨3⟩ ∧
      (isAssignable ⟨3⟩ ⟨1⟩ doublyBounded).1 := by
  have hparam : doublyBounded.univ.isParameter ⟨3⟩ := by cbv
  refine ⟨withinReach_doublyBounded, hparam, ?_⟩
  refine (parameter_assignable built_doublyBounded withinReach_doublyBounded ⟨3⟩ hparam ⟨1⟩
    (by cbv)).2 (Or.inr ⟨⟨1⟩, ?_, Or.inr (by cbv), by cbv⟩)
  rw [constraints_doublyBounded]
  exact List.mem_cons_self

/-- `T` is not assignable to `B`, its second bound, to which `B` itself is. -/
theorem not_forall_bound_assignable :
    ¬ ∀ c : Chronicle, c.univ.Built → c.univ.WithinReach → ∀ param, c.univ.isParameter param →
      ∀ bound ∈ c.univ.constraints param, ∀ ty, c.univ.contains ty → (isAssignable bound ty c).1 →
        (isAssignable param ty c).1 := by
  intro h
  have hmem : (⟨2⟩ : Handle) ∈ doublyBounded.univ.constraints ⟨3⟩ := by
    rw [constraints_doublyBounded]
    exact List.mem_cons_of_mem _ List.mem_cons_self
  have hyes := h doublyBounded built_doublyBounded withinReach_doublyBounded ⟨3⟩ (by cbv) ⟨2⟩ hmem ⟨2⟩
    (by cbv) (by cbv)
  have hno : (isAssignable ⟨3⟩ ⟨2⟩ doublyBounded).1 = false := by cbv
  exact Bool.false_ne_true (hno.symm.trans hyes)

end UniverseM

end Subtyping
