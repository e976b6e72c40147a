import Subtyping.Proofs.Consistent
import Subtyping.Universe.Instantiate

/-!
# Work that only adds types

A universe `Grows` when it gets more types and more closures on record, and stays consistent. Its
signature and all trees stay as they are. `UniverseM.Ensures u x Q` says that the work `x`, begun
on `u`, makes the universe grow and ends with `Q` of its result and of the universe that it leaves;
the journal plays no part in it. The rule for a sequence of steps is `UniverseM.Ensures.bind`.

Putting arguments for parameters is such work, and what it gives reads as the tree with the
arguments put in (`UniverseM.instantiate_ensures`).
-/

namespace Subtyping

namespace Universe

variable {u v w : Universe} {ty : Handle} {t : Ty}

/-- A signature depends on the declarations and on the trees of known handles. -/
theorem Consistent.signature_eq (hu : u.Consistent) (hc : v.catalog = u.catalog)
    (ht : ∀ ty, u.contains ty → v.typeAt ty = u.typeAt ty) : v.signature = u.signature := by
  have hp : v.parameter? = u.parameter? := by
    unfold parameter?
    rw [hc]
  unfold signature
  rw [hc, hp]
  congr 1
  · funext decl
    cases hd : (u.catalog.get? decl).bind (·.base) with
    | none => rfl
    | some b =>
      obtain ⟨d, hd, hb⟩ := Option.bind_eq_some_iff.1 hd
      rw [Option.map_some, Option.map_some, ht]
      exact contains_of_isBaseKind (hu.base hd hb)
  · funext decl
    refine List.map_congr_left fun i hi => ht i ?_
    cases hd : u.catalog.get? decl with
    | none => simp [hd] at hi
    | some d => exact contains_of_isInterface (hu.interfaces hd i (by simpa [hd] using hi))
  · funext owner index
    refine List.map_congr_left fun b hb => ht b ?_
    cases hp : u.parameter? owner index with
    | none => simp [hp] at hb
    | some p =>
      obtain ⟨d, hd, hmem⟩ := Option.bind_eq_some_iff.1 hp
      exact hu.bounds hd p (List.mem_of_getElem? hmem) b (by simpa [hp] using hb)

/-- The second universe is the first one with more types, and both are consistent. -/
structure Grows (u v : Universe) : Prop where
  before : u.Consistent
  after : v.Consistent
  catalog : v.catalog = u.catalog
  ownTypes : v.ownTypes = u.ownTypes
  table : u.table.Extends v.table

namespace Grows

theorem refl (hu : u.Consistent) : u.Grows u :=
  ⟨hu, hu, rfl, rfl, .refl _⟩

theorem trans (h : u.Grows v) (h' : v.Grows w) : u.Grows w :=
  ⟨h.before, h'.after, h'.catalog.trans h.catalog, h'.ownTypes.trans h.ownTypes,
    h.table.trans h'.table⟩

theorem contains (h : u.Grows v) (hc : u.contains ty) : v.contains ty :=
  h.table.isSome hc

theorem typeAt (h : u.Grows v) (hc : u.contains ty) : v.typeAt ty = u.typeAt ty :=
  h.table.typeAt_eq h.before.table h.after.table hc

theorem reads (h : u.Grows v) (hr : u.Reads ty t) : v.Reads ty t :=
  ⟨h.contains hr.1, (h.typeAt hr.1).trans hr.2⟩

theorem forall₂_reads (h : u.Grows v) {l : List Handle} {ts : List Ty}
    (hr : List.Forall₂ u.Reads l ts) : List.Forall₂ v.Reads l ts :=
  hr.imp fun _ _ => h.reads

theorem ownType? (h : u.Grows v) (decl : DeclId) : v.ownType? decl = u.ownType? decl := by
  unfold Universe.ownType?
  rw [h.ownTypes]

/-- What the declarations say is not affected. -/
theorem signature (h : u.Grows v) : v.signature = u.signature :=
  h.before.signature_eq h.catalog fun _ => h.typeAt

end Grows

/-- A consistent universe stays so when its table is extended by shapes that fit. -/
theorem Consistent.grows_of_extends (hu : u.Consistent) {table : TypeTable}
    (hwf : table.WellFormed) (hext : u.table.Extends table)
    (hfits : ∀ {ty shape}, table.shape? ty = some shape → u.shape? ty = some shape ∨ u.Fits shape) :
    u.Grows { u with table } := by
  set v : Universe := { u with table } with hv
  have hc : ∀ ty, u.contains ty → v.contains ty := fun ty h => hext.isSome h
  have hty : ∀ ty, u.contains ty → v.typeAt ty = u.typeAt ty :=
    fun ty h => hext.typeAt_eq hu.table hwf h
  have hhead : ∀ ty, u.contains ty → v.head? ty = u.head? ty := fun ty h => by
    obtain ⟨shape, hs⟩ := exists_shape?_of_contains h
    have hs' : v.shape? ty = some shape := hext _ _ hs
    rw [head?, head?, hs, hs']
  have hkind : ∀ ty, u.contains ty → v.kind? ty = u.kind? ty := fun ty h => by
    rw [kind?, kind?, hhead ty h]
  have hsig : v.signature = u.signature := hu.signature_eq rfl hty
  have hmono : ∀ shape, u.Fits shape → v.Fits shape := fun shape h => by
    cases shape with
    | plain decl => exact h
    | applied decl args => exact ⟨h.1, h.2.1, fun a ha => hc a (h.2.2 a ha)⟩
    | param owner index => exact h
  have hinh : v.Inherits = u.Inherits := by
    funext child parent
    have hp : v.parents child = u.parents child := by
      rw [parents, parents, show v.catalog = u.catalog from rfl]
      cases hd : u.catalog.get? child with
      | none => rfl
      | some d =>
        refine List.filterMap_congr fun ty hmem => hhead ty ?_
        rcases List.mem_append.1 hmem with hb | hi
        · exact contains_of_isBaseKind (hu.base hd (Option.mem_toList.1 hb))
        · exact contains_of_isInterface (hu.interfaces hd ty hi)
    rw [Inherits, Inherits, hp]
  refine ⟨hu, ⟨hwf, fun {ty shape} h => ?_, fun {decl d ty} hd hb => ?_, fun {decl d} hd ty hi => ?_,
    fun {decl d} hd p hp ty hb => hc ty (hu.bounds hd p hp ty hb), ?_,
    fun {ty closure} h => ?_⟩, rfl, rfl, hext⟩
  · rcases hfits h with hold | hnew
    · exact hmono shape (hu.fits hold)
    · exact hmono shape hnew
  · have hbase := hu.base hd hb
    rwa [isBaseKind, hkind ty (contains_of_isBaseKind hbase)]
  · have hint := hu.interfaces hd ty hi
    rwa [isInterface, hkind ty (contains_of_isInterface hint)]
  · rw [hinh]
    exact hu.acyclic
  · obtain ⟨hty', hmem, hmap⟩ := hu.closures h
    refine ⟨hc ty hty', fun i hi => hc i (hmem i hi), ?_⟩
    rw [hsig, hty ty hty', ← hmap]
    exact List.map_congr_left fun i hi => hty i (hmem i hi)

/-! ## Gaining a type -/

/-- In the second universe a handle stands for a tree, and all that was not there in the first one is
part of that tree. -/
structure Gains (u v : Universe) (ty : Handle) (t : Ty) : Prop where
  reads : v.Reads ty t
  parts : ∀ s, v.Has s → u.Has s ∨ s.Part t
  closures : v.closures = u.closures

/-- So for several trees at a time. -/
structure GainsAll (u v : Universe) (tys : List Handle) (ts : List Ty) : Prop where
  reads : List.Forall₂ v.Reads tys ts
  parts : ∀ s, v.Has s → u.Has s ∨ ∃ t ∈ ts, s.Part t
  closures : v.closures = u.closures

theorem Reads.gains (h : u.Reads ty t) : u.Gains u ty t :=
  ⟨h, fun _ => Or.inl, rfl⟩

theorem GainsAll.nil (u : Universe) : u.GainsAll u [] [] :=
  ⟨.nil, fun _ => Or.inl, rfl⟩

theorem Gains.cons {tys : List Handle} {ts : List Ty} (h : u.Gains v ty t) (hv : v.Grows w)
    (hts : v.GainsAll w tys ts) : u.GainsAll w (ty :: tys) (t :: ts) := by
  refine ⟨.cons (hv.reads h.reads) hts.reads, fun s hs => ?_, hts.closures.trans h.closures⟩
  rcases hts.parts s hs with hs | ⟨a, ha, hs⟩
  · exact (h.parts s hs).imp_right fun hs => ⟨t, List.mem_cons_self, hs⟩
  · exact Or.inr ⟨a, List.mem_cons_of_mem _ ha, hs⟩

/-- An application is gained after its arguments. -/
theorem GainsAll.applied {tys : List Handle} {ts : List Ty} {decl : DeclId}
    (hts : u.GainsAll v tys ts) (h : v.Gains w ty (.applied decl ts)) :
    u.Gains w ty (.applied decl ts) := by
  refine ⟨h.reads, fun s hs => ?_, h.closures.trans hts.closures⟩
  rcases h.parts s hs with hs | hs
  · exact (hts.parts s hs).imp_right fun ⟨a, ha, hs⟩ => .arg ha hs
  · exact Or.inr hs

end Universe

/-! ## Gauges -/

namespace DepthGauge

variable (g : DepthGauge)

/-- The gauge that has, besides, been exceeded if `b`. -/
def exceededIf (b : Bool) : DepthGauge :=
  { g with exceeded := g.exceeded || b }

theorem exceededIf_false : g.exceededIf false = g := by
  rw [exceededIf, Bool.or_false]

theorem exceededIf_true : g.exceededIf true = { g with exceeded := true } := by
  rw [exceededIf, Bool.or_true]

theorem exceededIf_exceededIf (b b' : Bool) :
    (g.exceededIf b).exceededIf b' = g.exceededIf (b || b') := by
  rw [exceededIf, exceededIf, exceededIf, Bool.or_assoc]

/-- Coming up one level after going down one. -/
theorem leave_exceededIf (b : Bool) :
    (({ g with depth := g.depth + 1 } : DepthGauge).exceededIf b).leave = g.exceededIf b :=
  rfl

end DepthGauge

namespace UniverseM

open Universe

variable {α β : Type} {u v : Universe} {Q R : α → Universe → Prop}

/-- Work begun on `u` makes the universe grow and ends with `Q`. -/
def Ensures (u : Universe) (x : UniverseM α) (Q : α → Universe → Prop) : Prop :=
  ∀ j, u.Grows (x ⟨u, j⟩).2.univ ∧ Q (x ⟨u, j⟩).1 (x ⟨u, j⟩).2.univ

namespace Ensures

theorem pure (hu : u.Consistent) {a : α} (h : Q a u) : Ensures u (pure a) Q :=
  fun _ => ⟨.refl hu, h⟩

theorem bind {x : UniverseM α} {f : α → UniverseM β} {R : β → Universe → Prop}
    (hx : Ensures u x Q) (hf : ∀ a v, u.Grows v → Q a v → Ensures v (f a) R) :
    Ensures u (x >>= f) R := by
  intro j
  obtain ⟨hg, hq⟩ := hx j
  obtain ⟨hg', hr⟩ := hf _ _ hg hq (x ⟨u, j⟩).2.journal
  exact ⟨hg.trans hg', hr⟩

theorem imp {x : UniverseM α} (hx : Ensures u x Q) (h : ∀ a v, u.Grows v → Q a v → R a v) :
    Ensures u x R :=
  fun j => ⟨(hx j).1, h _ _ (hx j).1 (hx j).2⟩

theorem map {x : UniverseM α} {f : α → β} {R : β → Universe → Prop} (hx : Ensures u x Q)
    (h : ∀ a v, u.Grows v → Q a v → R (f a) v) : Ensures u (f <$> x) R :=
  hx.bind fun a v hg hq => .pure hg.after (h a v hg hq)

theorem note (hu : u.Consistent) (e : Event) : Ensures u (note e) fun _ v => v = u :=
  fun _ => ⟨.refl hu, rfl⟩

end Ensures

/-! ## Interning -/

theorem intern_ensures (hu : u.Consistent) {shape : Shape} (hf : u.Fits shape) :
    Ensures u (intern shape) fun ty v => v.shape? ty = some shape := by
  intro j
  refine ⟨hu.grows_of_extends ?_ (u.table.extends_intern shape) fun {ty s} h => ?_,
    hu.table.shape?_intern shape⟩
  · refine hu.table.intern fun decl args he a ha => ?_
    subst he
    exact hf.2.2 a ha
  · rcases TypeTable.eq_or_of_shape?_intern h with hold | rfl
    · exact Or.inl hold
    · exact Or.inr hf

/-- Interning gains the tree of the shape. -/
theorem intern_gains (hu : u.Consistent) {shape : Shape} (hf : u.Fits shape) :
    Ensures u (intern shape) fun ty v =>
      v.shape? ty = some shape ∧ ∀ t, v.Reads ty t → u.Gains v ty t := by
  intro j
  obtain ⟨hv, hty⟩ := intern_ensures hu hf j
  refine ⟨hv, hty, fun t ht => ⟨ht, fun s hs => ?_, rfl⟩⟩
  obtain ⟨ty', hr⟩ := hs
  obtain ⟨shape', hs⟩ := exists_shape?_of_contains hr.1
  rcases TypeTable.eq_or_of_shape?_intern hs with hold | rfl
  · have hknown : u.contains ty' := contains_of_shape? hold
    exact Or.inl ⟨ty', hknown, (hv.typeAt hknown).symm.trans hr.2⟩
  · have hsame := (hv.after.table.index_iff _ _).2 hs
    rw [(hv.after.table.index_iff _ _).2 hty] at hsame
    obtain rfl := Option.some.inj hsame
    obtain rfl : s = t := hr.2.symm.trans ht.2
    exact Or.inr .refl

/-! ## Putting arguments for parameters -/

namespace Nested

variable {g : DepthGauge} {Q : α × DepthGauge → Universe → Prop}
  {R : β × DepthGauge → Universe → Prop}

/-- The rule for a sequence of steps that work with a gauge. -/
theorem ensures_bind {x : Nested α} {f : α → Nested β} (hx : Ensures u (x g) Q)
    (hf : ∀ a g' v, u.Grows v → Q (a, g') v → Ensures v (f a g') R) :
    Ensures u ((x >>= f) g) R :=
  Ensures.bind hx fun r v hg hq => hf r.1 r.2 v hg hq

theorem ensures_view {f : Universe → α} {k : α → Nested β} (h : Ensures u (k (f u) g) R) :
    Ensures u (((liftM (view f) : Nested α) >>= k) g) R :=
  h

theorem ensures_enter {k : Bool → Nested β} (h : Ensures u (k g.enter.1 g.enter.2) R) :
    Ensures u ((Nested.enter >>= k) g) R :=
  h

theorem ensures_leave {k : Unit → Nested β} (h : Ensures u (k () g.leave) R) :
    Ensures u ((Nested.leave >>= k) g) R :=
  h

theorem ensures_lift {x : UniverseM α} {P : α → Universe → Prop} (hx : Ensures u x P)
    (h : ∀ a v, u.Grows v → P a v → Q (a, g) v) : Ensures u ((liftM x : Nested α) g) Q :=
  hx.bind fun a v hg hp => .pure hg.after (h a v hg hp)

/-- Work on each member of a list, when it does not depend on the members before. Where `E` tells of a
member that its work comes upon the limit of the gauge, that of the list does so if some member's does. -/
theorem ensures_mapM {f : Handle → Nested Handle} {F : Ty → Ty} {E : Ty → Bool} {l : List Handle}
    {ts : List Ty} {levels : Nat} (hu : u.Consistent) (hl : List.Forall₂ u.Reads l ts)
    (hg : g.limit = levels + g.depth)
    (hf : ∀ {v ty t g}, u.Grows v → v.Reads ty t → g.limit = levels + g.depth →
      Ensures v (f ty g) fun r w => w.Reads r.1 (F t) ∧ r.2 = g.exceededIf (E t)) :
    Ensures u ((l.mapM f) g) fun r v =>
      List.Forall₂ v.Reads r.1 (ts.map F) ∧ r.2 = g.exceededIf (ts.any E) := by
  induction l generalizing u ts g with
  | nil =>
    obtain rfl := List.forall₂_nil_left_iff.1 hl
    exact .pure hu ⟨.nil, g.exceededIf_false.symm⟩
  | cons ty l ih =>
    obtain ⟨t, ts, ht, hrest, rfl⟩ := List.forall₂_cons_left_iff.1 hl
    rw [List.mapM_cons]
    refine ensures_bind (hf (.refl hu) ht hg) ?_
    rintro r g₁ v hv ⟨hr, rfl⟩
    refine ensures_bind (ih hv.after (hv.forall₂_reads hrest) hg fun hw => hf (hv.trans hw)) ?_
    rintro rs g₂ w hw ⟨hrs, rfl⟩
    exact .pure hw.after ⟨.cons (hw.reads hr) hrs, g.exceededIf_exceededIf _ _⟩

end Nested

/-- A parameter is replaced by its argument, if it has one. -/
theorem reads_fill_param {owner o : DeclId} {i levels : Nat} {args : List Handle} {ts : List Ty}
    {ty : Handle} (ht : u.Reads ty (.param o i)) (hargs : List.Forall₂ u.Reads args ts) :
    u.Reads (if o = owner then args[i]?.getD ty else ty) ((Ty.param o i).fill owner ts levels) := by
  rw [Ty.fill]
  split_ifs
  · by_cases hi : i < args.length
    · have hi' : i < ts.length := by rwa [← hargs.length_eq]
      rw [List.getElem?_eq_getElem hi, List.getElem?_eq_getElem hi']
      exact hargs.get hi hi'
    · have hi' : ¬ i < ts.length := by rwa [← hargs.length_eq]
      rw [List.getElem?_eq_none (Nat.le_of_not_lt hi), List.getElem?_eq_none (Nat.le_of_not_lt hi')]
      exact ht
  · exact ht

/-- The gauge comes back to where it was, and has been exceeded if more applications are nested than it
allowed. -/
theorem fill_ensures {owner : DeclId} {args : List Handle} {ts : List Ty} {levels : Nat}
    {ty : Handle} {t : Ty} {g : DepthGauge} (hu : u.Consistent) (ht : u.Reads ty t)
    (hargs : List.Forall₂ u.Reads args ts) (hg : g.limit = levels + g.depth) :
    Ensures u (fill owner args levels ty g) fun r v =>
      v.Reads r.1 (t.fill owner ts levels) ∧ r.2 = g.exceededIf (levels < t.nesting) := by
  induction levels generalizing u ty t g with
  | zero =>
    unfold fill
    refine Nested.ensures_view ?_
    cases t with
    | plain decl =>
      rw [hu.shape?_of_reads_plain ht]
      exact .pure hu ⟨ht, g.exceededIf_false.symm⟩
    | param o i =>
      rw [hu.shape?_of_reads_param ht]
      exact .pure hu ⟨reads_fill_param ht hargs, g.exceededIf_false.symm⟩
    | applied decl old =>
      obtain ⟨old, hs, -⟩ := hu.shape?_of_reads_applied ht
      rw [hs]
      refine Nested.ensures_enter ?_
      have henter : g.enter = (false, { g with exceeded := true }) := if_pos (by omega)
      rw [henter, if_neg Bool.false_ne_true]
      exact .pure hu ⟨ht, g.exceededIf_true.symm⟩
  | succ n ih =>
    unfold fill
    refine Nested.ensures_view ?_
    cases t with
    | plain decl =>
      rw [hu.shape?_of_reads_plain ht]
      exact .pure hu ⟨ht, g.exceededIf_false.symm⟩
    | param o i =>
      rw [hu.shape?_of_reads_param ht]
      exact .pure hu ⟨reads_fill_param ht hargs, g.exceededIf_false.symm⟩
    | applied decl olds =>
      obtain ⟨old, hs, hold⟩ := hu.shape?_of_reads_applied ht
      rw [hs]
      refine Nested.ensures_enter ?_
      have henter : g.enter = (true, { g with depth := g.depth + 1 }) := if_neg (by omega)
      have hdeeper : g.limit = n + (g.depth + 1) := by omega
      rw [henter, if_pos rfl]
      refine Nested.ensures_bind (Nested.ensures_mapM (F := (·.fill owner ts n))
        (E := fun t => n < t.nesting) hu hold (g := { g with depth := g.depth + 1 }) hdeeper
        fun hv hr hg' => ih hv.after hr (hv.forall₂_reads hargs) hg') ?_
      rintro new g' v hv ⟨hnew, rfl⟩
      refine Nested.ensures_leave ?_
      rw [DepthGauge.leave_exceededIf, ← Ty.succ_lt_nesting_applied decl]
      split_ifs with hsame
      · subst hsame
        exact .pure hv.after ⟨hv.after.reads_applied (hv.table _ _ hs) hnew, rfl⟩
      · have hlen : new.length = old.length := by
          rw [hnew.length_eq, List.length_map, hold.length_eq]
        obtain ⟨⟨d, hd, harity⟩, hne, -⟩ := hu.fits hs
        have hfits : v.Fits (.applied decl new) := by
          refine ⟨⟨d, by rw [hv.catalog, hd], by rw [harity, hlen]⟩, ?_, (forall₂_reads_iff.1 hnew).1⟩
          exact fun he => hne (List.eq_nil_of_length_eq_zero (by rw [← hlen, he, List.length_nil]))
        refine Nested.ensures_lift (intern_ensures hv.after hfits) fun r w hw hr => ?_
        exact ⟨hw.after.reads_applied hr (hw.forall₂_reads hnew), rfl⟩

/-- What comes out of putting arguments for parameters reads as the tree with them put in. -/
theorem instantiate_ensures {owner : DeclId} {args : List Handle} {ts : List Ty} {ty : Handle}
    {t : Ty} (hu : u.Consistent) (ht : u.Reads ty t) (hargs : List.Forall₂ u.Reads args ts) :
    Ensures u (instantiate ty owner args) fun r v => v.Reads r (t.instantiate owner ts) := by
  unfold instantiate
  refine Ensures.bind (fill_ensures hu ht hargs (by rfl)) ?_
  rintro ⟨r, g⟩ v hv ⟨hr, -⟩
  dsimp only
  split_ifs
  · exact Ensures.bind (.note hv.after _) fun _ w hw he => .pure hw.after (hw.reads hr)
  · exact .pure hv.after hr

end UniverseM

end Subtyping
