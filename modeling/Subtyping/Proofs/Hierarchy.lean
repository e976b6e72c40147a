import Subtyping.Proofs.Growth
import Subtyping.Universe.Hierarchy

/-!
# The hierarchy is that of the signature

Bases, declared interfaces, base chains, closures of interfaces and native assignability, as the
universe works them out on handles, read as what the signature says of the trees. All of them only
add types, and closures to the record.
-/

namespace Subtyping.UniverseM

open Universe

variable {α : Type} {u v : Universe} {ty : Handle} {t : Ty}

/-! ## Rules for lists -/

theorem Ensures.view {f : Universe → α} {β : Type} {k : α → UniverseM β}
    {R : β → Universe → Prop} (h : Ensures u (k (f u)) R) : Ensures u (view f >>= k) R :=
  h

theorem Ensures.mapM {f : Handle → UniverseM Handle} {F : Ty → Ty} {l : List Handle}
    {ts : List Ty} (hu : u.Consistent) (hl : List.Forall₂ u.Reads l ts)
    (hf : ∀ {v ty t}, u.Grows v → v.Reads ty t → Ensures v (f ty) fun r w => w.Reads r (F t)) :
    Ensures u (l.mapM f) fun rs v => List.Forall₂ v.Reads rs (ts.map F) := by
  induction l generalizing u ts with
  | nil =>
    obtain rfl := List.forall₂_nil_left_iff.1 hl
    exact .pure hu .nil
  | cons ty l ih =>
    obtain ⟨t, ts, ht, hrest, rfl⟩ := List.forall₂_cons_left_iff.1 hl
    rw [List.mapM_cons]
    refine Ensures.bind (hf (.refl hu) ht) fun r v hv hr => ?_
    refine Ensures.bind (ih hv.after (hv.forall₂_reads hrest) fun hw => hf (hv.trans hw)) ?_
    exact fun rs w hw hrs => .pure hw.after (.cons (hw.reads hr) hrs)

/-- Going through a list with an accumulator that is itself a list of types. -/
theorem Ensures.foldlM {f : List Handle → Handle → UniverseM (List Handle)}
    {F : List Ty → Ty → List Ty} {l acc : List Handle} {ts accs : List Ty} (hu : u.Consistent)
    (hl : List.Forall₂ u.Reads l ts) (hacc : List.Forall₂ u.Reads acc accs)
    (hf : ∀ {v acc accs ty t}, u.Grows v → List.Forall₂ v.Reads acc accs → v.Reads ty t →
      Ensures v (f acc ty) fun r w => List.Forall₂ w.Reads r (F accs t)) :
    Ensures u (l.foldlM f acc) fun r v => List.Forall₂ v.Reads r (ts.foldl F accs) := by
  induction l generalizing u ts acc accs with
  | nil =>
    obtain rfl := List.forall₂_nil_left_iff.1 hl
    exact .pure hu hacc
  | cons ty l ih =>
    obtain ⟨t, ts, ht, hrest, rfl⟩ := List.forall₂_cons_left_iff.1 hl
    rw [List.foldlM_cons, List.foldl_cons]
    refine Ensures.bind (hf (.refl hu) hacc ht) fun r v hv hr => ?_
    exact ih hv.after (hv.forall₂_reads hrest) hr fun hw => hf (hv.trans hw)

/-! ## Direct supertypes -/

theorem reads_base (hu : u.Consistent) (decl : DeclId) :
    Option.Rel u.Reads ((u.catalog.get? decl).bind (·.base)) (u.signature.declBase decl) := by
  cases h : (u.catalog.get? decl).bind (·.base) with
  | none => simp only [signature, h, Option.map_none]; exact .none
  | some b =>
    obtain ⟨d, hd, hb⟩ := Option.bind_eq_some_iff.1 h
    simp only [signature, h, Option.map_some]
    exact .some (reads_typeAt (contains_of_isBaseKind (hu.base hd hb)))

theorem reads_interfaces (hu : u.Consistent) (decl : DeclId) :
    List.Forall₂ u.Reads (((u.catalog.get? decl).map (·.interfaces)).getD [])
      (u.signature.declInterfaces decl) := by
  refine forall₂_reads_map fun i hi => ?_
  cases hd : u.catalog.get? decl with
  | none => simp [hd] at hi
  | some d => exact contains_of_isInterface (hu.interfaces hd i (by simpa [hd] using hi))

theorem find?_of_reads {p : Handle → Bool} {q : Ty → Bool} {l : List Handle} {ts : List Ty}
    (hl : List.Forall₂ u.Reads l ts) (h : ∀ {ty t}, u.Reads ty t → p ty = q t) :
    Option.Rel u.Reads (l.find? p) (ts.find? q) := by
  induction hl with
  | nil => exact .none
  | cons hab _ ih =>
    rw [List.find?_cons, List.find?_cons, h hab]
    split
    · exact .some hab
    · exact ih

theorem filter_of_reads {p : Handle → Bool} {q : Ty → Bool} {l : List Handle} {ts : List Ty}
    (hl : List.Forall₂ u.Reads l ts) (h : ∀ {ty t}, u.Reads ty t → p ty = q t) :
    List.Forall₂ u.Reads (l.filter p) (ts.filter q) := by
  induction hl with
  | nil => exact .nil
  | cons hab _ ih =>
    rw [List.filter_cons, List.filter_cons, h hab]
    split_ifs
    · exact .cons hab ih
    · exact ih

theorem baseType_ensures (hu : u.Consistent) (ht : u.Reads ty t) :
    Ensures u (baseType ty) fun r v => Option.Rel v.Reads r (u.signature.baseOf t) := by
  unfold baseType
  refine Ensures.view ?_
  cases t with
  | plain decl =>
    rw [id, hu.shape?_of_reads_plain ht]
    exact .pure hu (reads_base hu decl)
  | param owner index =>
    rw [id, hu.shape?_of_reads_param ht]
    exact .pure hu (find?_of_reads (hu.constraints_of_reads ht) hu.isBaseKind_of_reads)
  | applied decl ts =>
    obtain ⟨args, hs, hargs⟩ := hu.shape?_of_reads_applied ht
    rw [id, hs]
    dsimp only
    have hb := reads_base hu decl
    rw [Signature.baseOf]
    generalize (u.catalog.get? decl).bind (·.base) = base at hb ⊢
    generalize u.signature.declBase decl = tbase at hb ⊢
    cases hb with
    | none => exact .pure hu .none
    | some hb => exact (instantiate_ensures hu hb hargs).map fun r v _ hr => .some hr

theorem declaredInterfaces_ensures (hu : u.Consistent) (ht : u.Reads ty t) :
    Ensures u (declaredInterfaces ty) fun r v =>
      List.Forall₂ v.Reads r (u.signature.declaredBy t) := by
  unfold declaredInterfaces
  refine Ensures.view ?_
  cases t with
  | plain decl =>
    rw [id, hu.shape?_of_reads_plain ht]
    exact .pure hu (reads_interfaces hu decl)
  | param owner index =>
    rw [id, hu.shape?_of_reads_param ht]
    exact .pure hu (filter_of_reads (hu.constraints_of_reads ht) hu.isInterface_of_reads)
  | applied decl ts =>
    obtain ⟨args, hs, hargs⟩ := hu.shape?_of_reads_applied ht
    rw [id, hs]
    exact Ensures.mapM hu (reads_interfaces hu decl) fun hv hr =>
      instantiate_ensures hv.after hr (hv.forall₂_reads hargs)

/-! ## Walks -/

theorem chainFrom_ensures {origin : Handle} {steps : Nat} (hu : u.Consistent)
    (ht : u.Reads ty t) :
    Ensures u (chainFrom origin steps ty) fun r v =>
      List.Forall₂ v.Reads r (u.signature.chainFrom steps t) := by
  induction steps generalizing u ty t with
  | zero => exact Ensures.bind (.note hu _) fun _ v hv _ => .pure hv.after .nil
  | succ n ih =>
    unfold chainFrom
    refine Ensures.bind (baseType_ensures hu ht) fun r v hv hr => ?_
    rw [Signature.chainFrom]
    generalize u.signature.baseOf t = base at hr
    cases hr with
    | none => exact .pure hv.after (.cons (hv.reads ht) .nil)
    | some hb =>
      rw [← hv.signature]
      refine Ensures.bind (ih hv.after hb) fun rs w hw hrs => ?_
      exact .pure hw.after (.cons (hw.reads (hv.reads ht)) hrs)

theorem baseChain_ensures (hu : u.Consistent) (ht : u.Reads ty t) :
    Ensures u (baseChain ty) fun r v => List.Forall₂ v.Reads r (u.signature.chain t) :=
  chainFrom_ensures hu ht

theorem collect_ensures {generations : Nat} {seen : List Handle} {seens : List Ty}
    (hu : u.Consistent) (hseen : List.Forall₂ u.Reads seen seens) (ht : u.Reads ty t) :
    Ensures u (collect generations seen ty) fun r v =>
      List.Forall₂ v.Reads r (u.signature.collect generations seens t) := by
  induction generations generalizing u ty t seen seens with
  | zero => exact .pure hu hseen
  | succ n ih =>
    unfold collect
    rw [Signature.collect]
    rw [hu.contains_of_reads hseen ht]
    split_ifs with h h' h'
    · exact .pure hu hseen
    · exact absurd (List.contains_iff_mem.1 h) h'
    · exact absurd (List.contains_iff_mem.2 h') h
    · refine Ensures.bind (declaredInterfaces_ensures hu ht) fun r v hv hr => ?_
      have hacc : List.Forall₂ v.Reads (seen ++ [ty]) (seens ++ [t]) :=
        List.rel_append (hv.forall₂_reads hseen) (.cons (hv.reads ht) .nil)
      refine Ensures.foldlM hv.after hr hacc fun hw ha hi => ?_
      rw [← hv.signature, ← hw.signature]
      exact ih hw.after ha hi

/-- The interfaces of a list of ancestors, those of the first one first. -/
theorem foldlM_collect_ensures {generations : Nat} {ancestors : List Handle} {ts : List Ty}
    (hu : u.Consistent) (hl : List.Forall₂ u.Reads ancestors ts) :
    Ensures u
      (ancestors.foldlM (fun seen ancestor => do
        let declared ← declaredInterfaces ancestor
        declared.foldlM (collect generations) seen) [])
      fun r v => List.Forall₂ v.Reads r (ts.foldl (fun seen t =>
        (u.signature.declaredBy t).foldl (u.signature.collect generations) seen) []) := by
  refine Ensures.foldlM hu hl .nil fun hv ha hr => ?_
  refine Ensures.bind (declaredInterfaces_ensures hv.after hr) fun ds w hw hd => ?_
  rw [hv.signature] at hd
  refine Ensures.foldlM hw.after hd (hw.forall₂_reads ha) fun hx ha hi => ?_
  rw [← hv.signature, ← hw.signature, ← hx.signature]
  exact collect_ensures hx.after ha hi

theorem computeInterfaces_ensures (hu : u.Consistent) (ht : u.Reads ty t) :
    Ensures u (computeInterfaces ty) fun r v =>
      List.Forall₂ v.Reads r (u.signature.closureOf t) := by
  unfold computeInterfaces
  refine Ensures.bind (baseChain_ensures hu ht) fun chain v hv hchain => ?_
  refine Ensures.view ?_
  have hsize : v.catalog.size = u.signature.size := by rw [hv.catalog]; rfl
  rw [← hv.signature] at hchain hsize ⊢
  rw [hsize]
  exact foldlM_collect_ensures hv.after (List.rel_reverse hchain)

/-! ## Closures on record -/

/-- Closures that the signature gives may be put on record. -/
theorem grows_of_insert_closure (hu : u.Consistent) {closure : List Handle} (ht : u.Reads ty t)
    (hc : List.Forall₂ u.Reads closure (u.signature.closureOf t)) :
    u.Grows { u with closures := u.closures.insert ty closure } := by
  refine ⟨hu, ⟨hu.table, hu.fits, hu.base, hu.interfaces, hu.bounds, hu.acyclic,
    fun {ty' closure'} h => ?_⟩, rfl, rfl, .refl _⟩
  rw [Std.HashMap.getElem?_insert] at h
  split_ifs at h with he
  · obtain rfl := Option.some.inj h
    obtain rfl : ty = ty' := eq_of_beq he
    obtain ⟨hmem, hmap⟩ := forall₂_reads_iff.1 hc
    exact ⟨ht.1, hmem, hmap.trans (congrArg _ ht.2.symm)⟩
  · exact hu.closures h

theorem interfaces_ensures (hu : u.Consistent) (ht : u.Reads ty t) :
    Ensures u (interfaces ty) fun r v => List.Forall₂ v.Reads r (u.signature.closureOf t) := by
  unfold interfaces
  refine Ensures.view ?_
  cases h : u.closures[ty]? with
  | some closure =>
    obtain ⟨-, hmem, hmap⟩ := hu.closures h
    refine .pure hu (forall₂_reads_iff.2 ⟨hmem, ?_⟩)
    rw [hmap, ht.2]
  | none =>
    refine Ensures.bind (computeInterfaces_ensures hu ht) fun closure v hv hc => ?_
    have hg : v.Grows { v with closures := v.closures.insert ty closure } :=
      grows_of_insert_closure hv.after (hv.reads ht) (by rwa [hv.signature])
    exact fun j => ⟨hg, hg.forall₂_reads hc⟩

theorem isAssignable_ensures {source target : Handle} {s : Ty} (hu : u.Consistent)
    (hs : u.Reads source s) (ht : u.Reads target t) :
    Ensures u (isAssignable source target) fun r _ => r = u.signature.isAssignable s t := by
  unfold isAssignable
  have heq : source = target ↔ s = t := hu.eq_iff_of_reads hs ht
  split_ifs with h
  · refine .pure hu ?_
    rw [Signature.isAssignable, beq_iff_eq.2 (heq.1 h), Bool.true_or]
  · refine Ensures.view ?_
    have hne : (s == t) = false := beq_eq_false_iff_ne.2 fun he => h (heq.2 he)
    rw [hu.kind?_of_reads ht, Signature.isAssignable, hne, Bool.false_or]
    rcases hk : u.signature.kindOf? t with _ | k
    · exact .pure hu rfl
    · cases k with
      | interfaceKind =>
        refine Ensures.bind (interfaces_ensures hu hs) fun l v hv hl => ?_
        exact .pure hv.after (hv.after.contains_of_reads hl (hv.reads ht))
      | classKind | structKind =>
        refine Ensures.bind (baseChain_ensures hu hs) fun l v hv hl => ?_
        exact .pure hv.after (hv.after.contains_of_reads hl (hv.reads ht))

end Subtyping.UniverseM

namespace Subtyping

open Universe

/-- The signature gives what the universe works out. -/
structure Signature.Describes (S : Signature) (c : Chronicle) : Prop where
  kind? : ∀ {ty}, c.univ.contains ty → c.univ.kind? ty = S.kindOf? (c.univ.typeAt ty)
  constraints : ∀ {ty owner index}, c.univ.contains ty → c.univ.typeAt ty = .param owner index →
    (c.univ.constraints ty).map c.univ.typeAt = S.bounds owner index
  baseChain : ∀ {ty}, c.univ.contains ty →
    (UniverseM.baseChain ty c).1.map (UniverseM.baseChain ty c).2.univ.typeAt =
      S.chain (c.univ.typeAt ty)
  interfaces : ∀ {ty}, c.univ.contains ty →
    (UniverseM.interfaces ty c).1.map (UniverseM.interfaces ty c).2.univ.typeAt =
      S.closureOf (c.univ.typeAt ty)
  isAssignable : ∀ {ty ty'}, c.univ.contains ty → c.univ.contains ty' →
    (UniverseM.isAssignable ty ty' c).1 = S.isAssignable (c.univ.typeAt ty) (c.univ.typeAt ty')

theorem Universe.Consistent.describes {c : Chronicle} (hc : c.univ.Consistent) :
    c.univ.signature.Describes c where
  kind? h := hc.kind?_of_reads (reads_typeAt h)
  constraints h ht := (forall₂_reads_iff.1 (hc.constraints_of_reads ⟨h, ht⟩)).2
  baseChain h := (forall₂_reads_iff.1
    (UniverseM.baseChain_ensures hc (reads_typeAt h) c.journal).2).2
  interfaces h := (forall₂_reads_iff.1
    (UniverseM.interfaces_ensures hc (reads_typeAt h) c.journal).2).2
  isAssignable h h' :=
    (UniverseM.isAssignable_ensures hc (reads_typeAt h) (reads_typeAt h') c.journal).2

variable {u v : Universe}

/-! ## Work that may be refused -/

/-- What follows is done only where nothing has failed, and a failure undoes nothing. -/
theorem UniverseM.run_except_bind {ε α β : Type} (x : ExceptT ε UniverseM α) (f : α → ExceptT ε UniverseM β)
    (c : Chronicle) :
    (x >>= f).run c =
      match (x.run c).1 with
      | .ok a => (f a).run (x.run c).2
      | .error e => (.error e, (x.run c).2) := by
  have h : (x >>= f).run c = ExceptT.bindCont f (x.run c).1 (x.run c).2 := rfl
  rw [h]
  cases (x.run c).1 <;> rfl

theorem Declaring.run_require_bind {α β : Type} (f : Universe → Except Universe.Error α)
    (k : α → Declaring β) (c : Chronicle) :
    (Declaring.require f >>= k).run c =
      match f c.univ with
      | .ok a => (k a).run c
      | .error e => (.error e, c) := by
  have h : (Declaring.require f).run c = (f c.univ, c) := rfl
  rw [UniverseM.run_except_bind, h]
  cases f c.univ <;> rfl

theorem UniverseM.Ensures.require {α β : Type} {f : Universe → Except Universe.Error α}
    {k : α → Declaring β} {R : Except Universe.Error β → Universe → Prop} {a : α}
    (h : f u = .ok a) (hk : Ensures u (k a).run R) : Ensures u (Declaring.require f >>= k).run R := by
  intro j
  rw [Declaring.run_require_bind, h]
  exact hk j

/-! ## Generic types -/

/-- Every declaration has its own type: itself, or itself applied to its own parameters. -/
def Universe.Owned (u : Universe) : Prop :=
  ∀ {decl d}, u.catalog.get? decl = some d →
    ∃ ty, u.ownType? decl = some ty ∧ u.Reads ty (.own decl d.arity)

theorem Universe.Grows.owned (h : u.Grows v) (ho : u.Owned) : v.Owned := by
  intro decl d hd
  rw [h.catalog] at hd
  obtain ⟨ty, hty, hr⟩ := ho hd
  exact ⟨ty, (h.ownType? decl).trans hty, h.reads hr⟩

/-- The open definition behind a type is the own type of its declaration. -/
theorem Universe.Consistent.definition?_of_reads {ty : Handle} {decl : DeclId} {ts : List Ty}
    (hu : u.Consistent) (h : u.Reads ty (.applied decl ts)) : u.definition? ty = u.ownType? decl := by
  obtain ⟨args, hs, -⟩ := hu.shape?_of_reads_applied h
  simp [definition?, hs]

/-- A type has the definition of a declaration exactly if it is built from it. -/
theorem Universe.Consistent.definition?_eq_some_iff {ty definition : Handle} {t : Ty} {decl : DeclId}
    {d : Declaration} (hu : u.Consistent) (ho : u.Owned) (hd : u.catalog.get? decl = some d)
    (hown : u.ownType? decl = some definition) (h : u.Reads ty t) :
    u.definition? ty = some definition ↔ t.isBuiltFrom decl := by
  cases t with
  | plain e => simp [definition?, hu.shape?_of_reads_plain h, Ty.isBuiltFrom]
  | param o i => simp [definition?, hu.shape?_of_reads_param h, Ty.isBuiltFrom]
  | applied e ts =>
    rw [hu.definition?_of_reads h, Ty.isBuiltFrom, beq_iff_eq]
    constructor
    · intro he
      obtain ⟨d', hd', -⟩ := hu.exists_catalog_of_reads h
      obtain ⟨ty', hty', hr'⟩ := ho hd'
      obtain ⟨ty'', hty'', hr''⟩ := ho hd
      cases hty'.symm.trans he
      cases hty''.symm.trans hown
      have hhead := congrArg Ty.head? (hr'.2.symm.trans hr''.2)
      rw [Ty.head?_own, Ty.head?_own] at hhead
      exact Option.some.inj hhead
    · rintro rfl
      exact hown

theorem Universe.applicationShape_eq_ok {decl : DeclId} {d : Declaration} {definition : Handle}
    {args : List Handle} (hhead : u.head? definition = some decl)
    (hd : u.catalog.get? decl = some d) (harity : d.arity = args.length) (hne : args ≠ [])
    (hargs : ∀ a ∈ args, u.contains a) :
    u.applicationShape definition args = .ok (.applied decl args) := by
  have hdecl : u.declarationOf definition = .ok (decl, d) := by
    obtain ⟨shape, hs, hh⟩ := Option.bind_eq_some_iff.1 hhead
    simp only [declarationOf, hs, hh, hd]
    rfl
  have hgen : d.isGeneric = true := by
    have : d.parameters ≠ [] := fun he => hne (List.eq_nil_of_length_eq_zero (by
      rw [← harity, Declaration.arity, he, List.length_nil]))
    simpa [Declaration.isGeneric] using this
  have hknown : args.find? (!u.contains ·) = none := by
    rw [List.find?_eq_none]
    intro a ha
    simp [hargs a ha]
  simp only [applicationShape, hdecl, hgen, harity, hknown, bind, Except.bind]
  rfl

/-- A definition applied to as many known types as it has parameters. -/
theorem UniverseM.makeGeneric_ensures {decl : DeclId} {d : Declaration} {definition : Handle}
    {args : List Handle} {ts : List Ty} (hu : u.Consistent) (ho : u.Owned)
    (hd : u.catalog.get? decl = some d) (hown : u.ownType? decl = some definition)
    (harity : d.arity = ts.length) (hne : ts ≠ []) (hargs : List.Forall₂ u.Reads args ts) :
    Ensures u (makeGeneric definition args) fun r v =>
      ∃ ty, r = some ty ∧ v.Reads ty (.applied decl ts) := by
  obtain ⟨ty, hty, hr⟩ := ho hd
  obtain rfl : ty = definition := Option.some.inj (hty.symm.trans hown)
  have hlen : args.length = ts.length := hargs.length_eq
  have hne' : args ≠ [] := fun he => hne (List.eq_nil_of_length_eq_zero (by rw [← hlen, he]; rfl))
  have hpos : d.arity ≠ 0 := fun he => hne (List.eq_nil_of_length_eq_zero (by rw [← harity, he]))
  have hgen : u.isGeneric ty = true := by
    rw [hu.isGeneric_of_reads hr, Ty.own, if_neg hpos]
    rfl
  have hknown := (forall₂_reads_iff.1 hargs).1
  have hshape : u.applicationShape ty args = .ok (.applied decl args) :=
    applicationShape_eq_ok ((hu.head?_of_reads hr).trans (Ty.head?_own _ _)) hd
      (harity.trans hlen.symm) hne' hknown
  have hfits : u.Fits (.applied decl args) := ⟨⟨d, hd, harity.trans hlen.symm⟩, hne', hknown⟩
  unfold makeGeneric
  refine Ensures.view ?_
  rw [hgen, if_pos rfl]
  have happly : Ensures u (Declaring.apply ty args).run fun r v =>
      ∃ ty, r = .ok ty ∧ v.Reads ty (.applied decl ts) := by
    refine Ensures.require (f := (·.applicationShape ty args)) hshape ?_
    exact (intern_ensures hu hfits).map fun r v hv hs =>
      ⟨r, rfl, hv.after.reads_applied hs (hv.forall₂_reads hargs)⟩
  refine happly.bind ?_
  rintro _ v hv ⟨r, rfl, hr⟩
  exact .pure hv.after ⟨r, rfl, hr⟩

end Subtyping
