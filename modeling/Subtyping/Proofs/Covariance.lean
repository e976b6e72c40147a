import Subtyping.Proofs.FixedPoints
import Subtyping.Proofs.Assignability

/-!
# Generic interfaces are covariant

Two types built from one generic interface are compared position by position. No interface of a type
is built from the definition that the type is built from, since it is lower
(`Universe.Consistent.not_isBuiltFrom_of_mem_closureOf`), so the type itself is the only candidate
(`Signature.sub_applied_iff`), and what results is built from what results at the positions
(`Signature.res_applied`).

The search compares the arguments while it assumes the pair of types that it is at. That makes no
difference: a query of the arguments alone, asked at another time and by another solver, has the same
answer (`Solver.Settled.resolves`), so that a query of the types follows from queries of the arguments
(`Solver.Served.interface_covariant`).
-/

namespace Subtyping

theorem forall₂_iff_getElem? {α β : Type} {R : α → β → Prop} {l : List α} {m : List β}
    (hlen : l.length = m.length) :
    List.Forall₂ R l m ↔ ∀ (i : Nat) (a : α) (b : β), l[i]? = some a → m[i]? = some b → R a b := by
  constructor
  · intro h i a b ha hb
    obtain ⟨b', hb', hab⟩ := exists_of_forall₂_of_getElem? h ha
    cases hb.symm.trans hb'
    exact hab
  · intro h
    refine List.forall₂_iff_get.2 ⟨hlen, fun i hi hi' => ?_⟩
    exact h i _ _ (List.getElem?_eq_getElem hi) (List.getElem?_eq_getElem hi')

namespace Signature

variable {S : Signature} {R : Ty → Ty → Prop} {decl : DeclId} {args targets : List Ty}

theorem resArgs_eq_zipWith : S.resArgs args targets = List.zipWith S.resArg args targets := by
  induction args generalizing targets with
  | nil => rw [resArgs_nil, List.zipWith_nil_left]
  | cons arg args ih =>
    cases targets with
    | nil =>
      rw [resArgs, List.zipWith_nil_right]
      simp
    | cons target targets => rw [resArgs_cons, ih, List.zipWith_cons_cons]

theorem resArg_of_native {arg target : Ty} (h : arg = target ∨ S.isAssignable arg target) :
    S.resArg arg target = arg := by
  rw [resArg, if_pos (Or.inr h)]

theorem resArg_of_res {arg target x : Ty} (hparam : target.isParam = false)
    (h : ¬ (arg = target ∨ S.isAssignable arg target)) (hx : S.res arg target = some x) :
    S.resArg arg target = x := by
  rw [resArg, if_neg, hx, Option.getD_some]
  rintro (hp | hn)
  · rw [hparam] at hp
    cases hp
  · exact h hn

section SameDefinition

variable (hi : S.isInterface (.applied decl targets)) (hne : args ≠ targets)
include hi hne

/-- Of two types built from one interface, the first can stand for the second if its arguments meet
those of the second. -/
theorem sub_applied_iff (hown : ∀ c ∈ S.closureOf (.applied decl args), ¬ c.isBuiltFrom decl) :
    S.Sub (.applied decl args) (.applied decl targets) ↔ List.Forall₂ (S.Meets S.Sub) args targets := by
  rw [sub_iff_follows, follows_iff_of_isInterface hi (by simpa using hne)]
  constructor
  · rintro ⟨c, hc, hbuilt, hmeets⟩
    rcases List.mem_cons.1 hc with rfl | hc
    · exact hmeets
    · exact absurd hbuilt (hown c hc)
  · exact fun h => ⟨_, List.mem_cons_self, beq_self_eq_true decl, h⟩

theorem res_applied (h : List.Forall₂ (S.Meets S.Sub) args targets) :
    S.res (.applied decl args) (.applied decl targets) =
      some (.applied decl (List.zipWith S.resArg args targets)) := by
  have hsuits : S.Suits S.Sub decl targets (.applied decl args) := ⟨beq_self_eq_true decl, h⟩
  rw [res, if_neg (by simpa using hne), if_pos hi, candidate?, firstSuited_cons_of_suits hsuits,
    Option.map_some, Ty.args, resArgs_eq_zipWith]

end SameDefinition

end Signature

namespace Universe

variable {u v : Universe} {ty : Handle} {t x : Ty}

/-- No interface of a type is built from the definition that the type is built from. -/
theorem Consistent.not_isBuiltFrom_of_mem_closureOf (hu : u.Consistent)
    (hS : u.signature.WellKinded) {decl : DeclId} {args : List Ty}
    (h : x ∈ u.signature.closureOf (.applied decl args)) : ¬ x.isBuiltFrom decl := by
  intro hbuilt
  obtain ⟨xs, rfl⟩ := Ty.isBuiltFrom_iff.1 hbuilt
  have hlt := hu.height_lt_of_transGen hS (Signature.transGen_of_mem_closureOf _ h)
  rw [height_of_head? rfl, height_of_head? rfl] at hlt
  exact Nat.lt_irrefl _ hlt

/-- The arguments of a type that is built from two lists, position by position. -/
theorem Consistent.exists_positions (hu : u.Consistent) {decl : DeclId} {l m : List Handle}
    {f : Ty → Ty → Ty} {g : Handle → Ty}
    (h : u.Reads ty (.applied decl (List.zipWith f (l.map g) (m.map g)))) (hlen : l.length = m.length) :
    ∃ xs, u.shape? ty = some (.applied decl xs) ∧ xs.length = l.length ∧
      ∀ (i : Nat) (a b x : Handle), l[i]? = some a → m[i]? = some b → xs[i]? = some x →
        u.Reads x (f (g a) (g b)) := by
  obtain ⟨xs, hshape, hxs⟩ := hu.shape?_of_reads_applied h
  refine ⟨xs, hshape, ?_, fun i a b x ha hb hx => ?_⟩
  · rw [hxs.length_eq, List.length_zipWith, List.length_map, List.length_map, hlen, Nat.min_self]
  · obtain ⟨t, ht, hread⟩ := exists_of_forall₂_of_getElem? hxs hx
    rw [List.getElem?_zipWith, List.getElem?_map, List.getElem?_map, ha, hb] at ht
    cases ht
    exact hread

section SameDefinition

variable {source target : Handle} {decl : DeclId} {args targets : List Handle} (hu : u.Consistent)
  (hsource : u.shape? source = some (.applied decl args))
include hu hsource

theorem Consistent.contains_argument {a : Handle} (ha : a ∈ args) : u.contains a :=
  (hu.table.older hsource a ha).2

theorem Consistent.typeAt_of_applied : u.typeAt source = .applied decl (args.map u.typeAt) := by
  have hargs : List.Forall₂ u.Reads args (args.map u.typeAt) :=
    forall₂_reads_iff.2 ⟨fun a => hu.contains_argument hsource, rfl⟩
  exact (hu.reads_applied hsource hargs).2

variable (htarget : u.shape? target = some (.applied decl targets))
include htarget

theorem Consistent.length_eq_of_applied : args.length = targets.length := by
  obtain ⟨⟨d, hd, hlen⟩, -⟩ := hu.fits hsource
  obtain ⟨⟨d', hd', hlen'⟩, -⟩ := hu.fits htarget
  cases hd.symm.trans hd'
  exact hlen.symm.trans hlen'

variable (hinterface : u.isInterface target) (hparam : ∀ b ∈ targets, u.isParameter b = false)
  (hne : source ≠ target)
include hinterface hparam hne

/-- Two types built from one interface are compared position by position, and what results is built from
what results at the positions. -/
theorem Consistent.sub_of_applied (hS : u.signature.WellKinded) :
    (u.signature.Sub (u.typeAt source) (u.typeAt target) ↔
      ∀ (i : Nat) (a b : Handle), args[i]? = some a → targets[i]? = some b →
        u.signature.Accepts u.signature.Sub (u.typeAt a) (u.typeAt b)) ∧
    (u.signature.Sub (u.typeAt source) (u.typeAt target) →
      u.signature.res (u.typeAt source) (u.typeAt target) =
        some (.applied decl (List.zipWith u.signature.resArg (args.map u.typeAt)
          (targets.map u.typeAt)))) := by
  have hne' : args.map u.typeAt ≠ targets.map u.typeAt := by
    intro heq
    refine hne (hu.reads_injective (reads_typeAt (contains_of_shape? hsource))
      ⟨contains_of_shape? htarget, ?_⟩)
    rw [hu.typeAt_of_applied hsource, hu.typeAt_of_applied htarget, heq]
  rw [hu.isInterface_of_reads (reads_typeAt (contains_of_shape? htarget)),
    hu.typeAt_of_applied htarget] at hinterface
  rw [hu.typeAt_of_applied hsource, hu.typeAt_of_applied htarget]
  have hsub := Signature.sub_applied_iff hinterface hne' fun x =>
    hu.not_isBuiltFrom_of_mem_closureOf hS
  refine ⟨?_, fun h => Signature.res_applied hinterface hne' (hsub.1 h)⟩
  rw [hsub, List.forall₂_map_left_iff, List.forall₂_map_right_iff,
    forall₂_iff_getElem? (hu.length_eq_of_applied hsource htarget)]
  refine forall_congr' fun i => forall_congr' fun a => forall_congr' fun b =>
    imp_congr_right fun _ => imp_congr_right fun hb => Signature.meets_iff_accepts ?_
  have hmem := List.mem_of_getElem? hb
  rw [← hu.isParameter_of_reads (reads_typeAt (hu.contains_argument htarget hmem))]
  exact hparam b hmem

end SameDefinition

/-- One universe has all types of the other, under the same handles. -/
def Alongside (u v : Universe) : Prop :=
  u.table.Extends v.table ∨ v.table.Extends u.table

theorem Alongside.reads (h : u.Alongside v) (hu : u.Consistent) (hv : v.Consistent)
    (ht : u.Reads ty t) (hty : v.contains ty) : v.Reads ty t := by
  refine ⟨hty, ?_⟩
  rcases h with hext | hext
  · exact (hext.typeAt_eq hu.table hv.table ht.1).trans ht.2
  · exact (hext.typeAt_eq hv.table hu.table hty).symm.trans ht.2

theorem Alongside.eq_of_rel (h : u.Alongside v) (hu : u.Consistent) (hv : v.Consistent)
    {r r' : Option Handle} {t : Option Ty} (hr : Option.Rel u.Reads r t)
    (hr' : Option.Rel v.Reads r' t) : r = r' := by
  rcases h with hext | hext
  · exact hu.rel_reads_injective hv hext hr hr'
  · exact (hv.rel_reads_injective hu hext hr' hr).symm

end Universe

namespace Solver

open UniverseM Universe

variable {c : Chronicle} {s : Solver} {source target : Handle} {a b : Ty} {r : Answer × Solver}

/-- A query that no limit cut short, asked of any solver over the same declarations, before or after, or
in a copy of the universe. -/
inductive Settled (c : Chronicle) (s : Solver) (source target : Handle) : Answer × Solver → Prop where
  | query {s' : Solver} (hs : s'.Served c) (halong : s.univ.Alongside s'.univ)
      (hsource : s'.univ.contains source) (htarget : s'.univ.contains target) (limits : Limits)
      (hexc : (Solver.query limits (some source) (some target) s').1.depthExceeded = false) :
      Settled c s source target (Solver.query limits (some source) (some target) s')

/-- All queries of a pair that no limit cut short have one answer. -/
theorem Settled.resolves (h : Settled c s source target r) (hc : c.univ.Built) (hs : s.Served c)
    (ha : s.univ.Reads source a) (hb : s.univ.Reads target b) :
    r.2.univ.Consistent ∧ (r.1.isRelated ↔ c.univ.signature.Sub a b) ∧
      Option.Rel r.2.univ.Reads r.1.substitution (c.univ.signature.res a b) := by
  cases h with
  | @query s' hs' halong hsource htarget limits hexc =>
    have hu := (hs.exact hc.valid).1.consistent
    obtain ⟨hexact', -⟩ := hs'.exact hc.valid
    obtain ⟨hadv, hreply⟩ := hexact'.query limits
      (halong.reads hu hexact'.consistent ha hsource) (halong.reads hu hexact'.consistent hb htarget)
    exact ⟨hadv.exact.consistent, hreply.isRelated_iff hexc, hreply.resolved hexc⟩

section Position

variable {x y z : Handle} {q : Answer × Solver} (hc : c.univ.Built) (hs : s.Served c)
  (hx : s.univ.contains x) (hy : s.univ.contains y)
include hc hs hx hy

theorem Served.native_iff :
    x = y ∨ (isAssignable x y s.chronicle).1 ↔
      s.univ.typeAt x = s.univ.typeAt y ∨
        c.univ.signature.isAssignable (s.univ.typeAt x) (s.univ.typeAt y) := by
  obtain ⟨hexact, -⟩ := hs.exact hc.valid
  rw [hexact.consistent.eq_iff_of_reads (reads_typeAt hx) (reads_typeAt hy),
    hexact.consistent.describes.isAssignable hx hy, hexact.signature]

variable (hq : x = y ∨ (isAssignable x y s.chronicle).1 ∨ Settled c s x y q)
include hq

/-- At one position, what the search accepts is what a query of the arguments alone accepts. -/
theorem Served.accepts_iff :
    c.univ.signature.Accepts c.univ.signature.Sub (s.univ.typeAt x) (s.univ.typeAt y) ↔
      x = y ∨ (isAssignable x y s.chronicle).1 ∨ q.1.isRelated := by
  rw [Signature.Accepts, ← or_assoc, ← hs.native_iff hc hx hy, ← or_assoc]
  rcases hq with h | h | h
  · exact ⟨fun _ => Or.inl (Or.inl h), fun _ => Or.inl (Or.inl h)⟩
  · exact ⟨fun _ => Or.inl (Or.inr h), fun _ => Or.inl (Or.inr h)⟩
  · rw [(h.resolves hc hs (reads_typeAt hx) (reads_typeAt hy)).2.1]

/-- At one position, the argument stays if it is natively assignable, and else what the query of the
arguments alone resolves to takes its place. -/
theorem Served.resArg_position {v : Universe} (hv : s.univ.Grows v)
    (hparam : s.univ.isParameter y = false)
    (haccepts : x = y ∨ (isAssignable x y s.chronicle).1 ∨ q.1.isRelated)
    (hz : v.Reads z (c.univ.signature.resArg (s.univ.typeAt x) (s.univ.typeAt y))) :
    (x = y ∨ (isAssignable x y s.chronicle).1 → z = x) ∧
    (x ≠ y → (isAssignable x y s.chronicle).1 = false →
      q.1.substitution.map q.2.univ.typeAt = some (v.typeAt z) ∧
      (v.Alongside q.2.univ → q.1.substitution = some z)) := by
  have hrx := reads_typeAt hx
  have hry := reads_typeAt hy
  refine ⟨fun hnative => ?_, fun hne hassign => ?_⟩
  · rw [Signature.resArg_of_native ((hs.native_iff hc hx hy).1 hnative)] at hz
    exact hv.after.reads_injective hz (hv.reads hrx)
  · have hnative : ¬ (x = y ∨ (isAssignable x y s.chronicle).1) := by simp [hne, hassign]
    obtain ⟨hq', hrel, hres⟩ :=
      ((or_assoc.2 hq).resolve_left hnative).resolves hc hs hrx hry
    have hsub := hrel.1 ((or_assoc.2 haccepts).resolve_left hnative)
    obtain ⟨t, ht⟩ := Option.isSome_iff_exists.1 (Signature.isSome_res_iff.2 hsub)
    rw [hv.before.isParameter_of_reads hry] at hparam
    rw [Signature.resArg_of_res hparam (mt (hs.native_iff hc hx hy).2 hnative) ht] at hz
    rw [ht] at hres
    refine ⟨?_, fun halong => (halong.eq_of_rel hv.after hq' (.some hz) hres).symm⟩
    rw [map_typeAt_of_rel hres, hz.2]

end Position

/-- A query of two types built from one generic interface, no argument of the second a parameter, is
answered position by position: an argument that is natively assignable stays, and any other gives way to
what a query of the arguments alone resolves to. -/
theorem Served.interface_covariant (hc : c.univ.Built) (hs : s.Served c) {decl : DeclId}
    {args targets : List Handle} (hsource : s.univ.shape? source = some (.applied decl args))
    (htarget : s.univ.shape? target = some (.applied decl targets))
    (hinterface : s.univ.isInterface target) (hparam : ∀ b ∈ targets, s.univ.isParameter b = false)
    (hne : source ≠ target) (nested : Nat → Answer × Solver)
    (hnested : ∀ i a b, args[i]? = some a → targets[i]? = some b →
      a = b ∨ (isAssignable a b s.chronicle).1 ∨ Settled c s a b (nested i)) (limits : Limits) :
    let r := Solver.query limits (some source) (some target) s
    r.1.depthExceeded = false →
      (r.1.isRelated ↔ ∀ i a b, args[i]? = some a → targets[i]? = some b →
        a = b ∨ (isAssignable a b s.chronicle).1 ∨ (nested i).1.isRelated) ∧
      ∀ ty, r.1.substitution = some ty → ∃ xs, r.2.univ.shape? ty = some (.applied decl xs) ∧
        xs.length = args.length ∧
        ∀ i a b x, args[i]? = some a → targets[i]? = some b → xs[i]? = some x →
          (a = b ∨ (isAssignable a b s.chronicle).1 → x = a) ∧
          (a ≠ b → (isAssignable a b s.chronicle).1 = false →
            (nested i).1.substitution.map (nested i).2.univ.typeAt = some (r.2.univ.typeAt x) ∧
            (r.2.univ.Alongside (nested i).2.univ → (nested i).1.substitution = some x)) := by
  intro r hexc
  obtain ⟨hexact, -⟩ := hs.exact hc.valid
  have hu := hexact.consistent
  have hS : s.univ.signature.WellKinded := hexact.signature ▸ hc.wellKinded
  obtain ⟨hadv, hreply⟩ := hexact.query limits (reads_typeAt (contains_of_shape? hsource))
    (reads_typeAt (contains_of_shape? htarget))
  obtain ⟨hsub, hres⟩ := hu.sub_of_applied hsource htarget hinterface hparam hne hS
  rw [hexact.signature] at hsub hres
  have hknown : ∀ {i a b}, args[i]? = some a → targets[i]? = some b →
      s.univ.contains a ∧ s.univ.contains b := fun ha hb =>
    ⟨hu.contains_argument hsource (List.mem_of_getElem? ha),
      hu.contains_argument htarget (List.mem_of_getElem? hb)⟩
  have hpositions : r.1.isRelated ↔ ∀ i a b, args[i]? = some a → targets[i]? = some b →
      a = b ∨ (isAssignable a b s.chronicle).1 ∨ (nested i).1.isRelated := by
    rw [hreply.isRelated_iff hexc, hsub]
    refine forall_congr' fun i => forall_congr' fun a => forall_congr' fun b =>
      forall_congr' fun ha => forall_congr' fun hb => ?_
    exact hs.accepts_iff hc (hknown ha hb).1 (hknown ha hb).2 (hnested i a b ha hb)
  refine ⟨hpositions, fun ty hty => ?_⟩
  have hrelated : r.1.isRelated := by rw [Answer.isRelated, hty]; rfl
  have hrel := hreply.resolved hexc
  rw [hres (hreply.related hrelated), hty] at hrel
  obtain ⟨xs, hshape, hlen, hxs⟩ := hadv.exact.consistent.exists_positions
    (Option.rel_some_some.1 hrel) (hu.length_eq_of_applied hsource htarget)
  refine ⟨xs, hshape, hlen, fun i a b x ha hb hx => ?_⟩
  exact hs.resArg_position hc (hknown ha hb).1 (hknown ha hb).2 (hnested i a b ha hb) hadv.grows
    (hparam b (List.mem_of_getElem? hb)) (hpositions.1 hrelated i a b ha hb) (hxs i a b x ha hb hx)

/-- The query of `Crate<Dog>` for `Box<Animal>`, without the verdicts that the query of their boxes left. -/
def crateAlone : Answer × Solver :=
  Solver.query .query (some ⟨8⟩) (some ⟨10⟩) (Solver.clear servedCrated).2

set_option maxRecDepth 2000 in
theorem settled_crateAlone : Settled crated ⟨crated, {}⟩ ⟨8⟩ ⟨10⟩ crateAlone := by
  have hserved : (Solver.clear servedCrated).2.Served crated :=
    .clear (.query .new .query (by rintro _ ⟨⟩; cbv) (by rintro _ ⟨⟩; cbv))
  have hgrows := (hserved.exact built_crated.valid).2
  exact .query hserved (Or.inl hgrows.table) (by cbv) (by cbv) .query (by cbv)

/-- `Box<Crate<Dog>>` resolves to `Box<Box<Dog>>` for `Box<Box<Animal>>`. The crate is not natively assignable
to `Box<Animal>`; asked alone it resolves to `Box<Dog>`, which stands in its place. -/
theorem Served.interface_covariant_crated :
    (Solver.query .query (some ⟨9⟩) (some ⟨11⟩) ⟨crated, {}⟩).1 = ⟨some ⟨13⟩, false, false⟩ ∧
      servedCrated.univ.shape? ⟨13⟩ = some (.applied ⟨1⟩ [⟨12⟩]) ∧
      (isAssignable ⟨8⟩ ⟨10⟩ crated).1 = false ∧ crateAlone.1.isRelated ∧
      crateAlone.1.substitution.map crateAlone.2.univ.typeAt = some (servedCrated.univ.typeAt ⟨12⟩) := by
  obtain ⟨hanswer, -, -⟩ := query_crated
  have hshape : servedCrated.univ.shape? ⟨13⟩ = some (.applied ⟨1⟩ [⟨12⟩]) := by cbv
  have hassign : (isAssignable ⟨8⟩ ⟨10⟩ crated).1 = false := by cbv
  have hsource : crated.univ.shape? ⟨9⟩ = some (.applied ⟨1⟩ [⟨8⟩]) := by cbv
  have htarget : crated.univ.shape? ⟨11⟩ = some (.applied ⟨1⟩ [⟨10⟩]) := by cbv
  have hinterface : crated.univ.isInterface ⟨11⟩ := by cbv
  have hparam : ∀ b ∈ [(⟨10⟩ : Handle)], crated.univ.isParameter b = false :=
    List.forall_mem_singleton.2 (by cbv)
  obtain ⟨hrelated, hresolved⟩ := interface_covariant built_crated .new hsource htarget hinterface hparam
    (by decide) (fun _ => crateAlone) (fun i a b ha hb => by
      obtain rfl := List.mem_singleton.1 (List.mem_of_getElem? ha)
      obtain rfl := List.mem_singleton.1 (List.mem_of_getElem? hb)
      exact Or.inr (Or.inr settled_crateAlone)) .query (by rw [hanswer])
  dsimp only at hrelated hresolved
  have hpair := hrelated.1 (by rw [hanswer]; rfl) 0 ⟨8⟩ ⟨10⟩ rfl rfl
  obtain ⟨xs, hxs, -, hposition⟩ := hresolved ⟨13⟩ (by rw [hanswer])
  rw [servedCrated] at hshape ⊢
  cases hshape.symm.trans hxs
  obtain ⟨-, hplace⟩ := hposition 0 ⟨8⟩ ⟨10⟩ ⟨12⟩ rfl rfl rfl
  refine ⟨hanswer, hshape, hassign, ?_, (hplace (by decide) hassign).1⟩
  simpa [hassign] using hpair

end Solver

end Subtyping
