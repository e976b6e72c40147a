import Subtyping.Proofs.OpenDefinitions

/-!
# What is reached by going up

A type is `Above` another if it is its base or one of the interfaces that it declares. Going up step by
step from a type, one stays on its base chain or among its interfaces
(`Signature.WithinReach.mem_of_reaches`), provided that no base chain is longer than a walk goes
(`Signature.WithinReach`): the closure of interfaces is collected depth first, and whatever it holds it
holds with all that is declared there (`Signature.Gathered`). So a class, struct or interface that is
reached from a type without parameters is one that the type can stand for
(`Signature.Scoped.sub_of_reaches`).
-/

namespace Subtyping

open Relation

namespace Signature

variable {S : Signature} {a b t x : Ty} {rank : DeclId → Nat}

/-- The second type is the base of the first or one of the interfaces that it declares. -/
def Above (S : Signature) (t up : Ty) : Prop :=
  S.baseOf t = some up ∨ up ∈ S.declaredBy t

/-- Bases are classes and structs, listed interfaces are interfaces, and interfaces have no base. -/
structure WellKinded (S : Signature) : Prop where
  base : ∀ {decl t}, S.declBase decl = some t → S.isBaseKind t
  interfaces : ∀ {decl t}, t ∈ S.declInterfaces decl → S.isInterface t
  no_base : ∀ {decl}, S.kind? decl = some .interfaceKind → S.declBase decl = none

/-- Every base chain ends within the reach of a walk. -/
def WithinReach (S : Signature) : Prop :=
  ∀ t, (S.chainFrom (Limits.hierarchy.depth + 1) t).length ≤ Limits.hierarchy.depth

/-! ## Kinds -/

theorem kindOf?_of_head?_eq (h : a.head? = b.head?) : S.kindOf? a = S.kindOf? b := by
  rw [kindOf?, kindOf?, h]

theorem isBaseKind_of_head?_eq (h : a.head? = b.head?) (hb : S.isBaseKind b) : S.isBaseKind a := by
  rwa [isBaseKind, kindOf?_of_head?_eq h]

theorem isInterface_of_head?_eq (h : a.head? = b.head?) (hb : S.isInterface b) : S.isInterface a := by
  rwa [isInterface, kindOf?_of_head?_eq h]

theorem exists_head?_of_isBaseKind (h : S.isBaseKind t) : ∃ decl, t.head? = some decl := by
  cases t with
  | plain decl => exact ⟨decl, rfl⟩
  | applied decl args => exact ⟨decl, rfl⟩
  | param owner index => simp [isBaseKind, kindOf?, Ty.head?] at h

namespace WellKinded

variable (hS : S.WellKinded)
include hS

theorem isBaseKind_of_baseOf (h : S.baseOf t = some b) : S.isBaseKind b := by
  cases t with
  | plain decl => exact hS.base h
  | param owner index => exact List.find?_some h
  | applied decl args =>
    obtain ⟨base, hbase, rfl⟩ := Option.map_eq_some_iff.1 h
    obtain ⟨head, hhead⟩ := exists_head?_of_isBaseKind (hS.base hbase)
    exact isBaseKind_of_head?_eq ((Ty.head?_instantiate hhead decl args).trans hhead.symm)
      (hS.base hbase)

theorem isInterface_of_mem_declaredBy (h : b ∈ S.declaredBy t) : S.isInterface b := by
  cases t with
  | plain decl => exact hS.interfaces h
  | param owner index => exact (List.mem_filter.1 h).2
  | applied decl args =>
    obtain ⟨interface, hmem, rfl⟩ := List.mem_map.1 h
    obtain ⟨head, hhead⟩ := head?_of_isInterface (hS.interfaces hmem)
    exact isInterface_of_head?_eq ((Ty.head?_instantiate hhead decl args).trans hhead.symm)
      (hS.interfaces hmem)

/-- Interfaces have no base. -/
theorem baseOf_eq_none (h : S.isInterface t) : S.baseOf t = none := by
  rw [isInterface, beq_iff_eq] at h
  cases t with
  | plain decl => exact hS.no_base h
  | applied decl args => rw [baseOf, hS.no_base h, Option.map_none]
  | param owner index => cases h

theorem isInterface_of_mem_closureOf : ∀ i ∈ S.closureOf t, S.isInterface i := by
  refine List.foldlRecOn (motive := fun acc => ∀ x ∈ acc, S.isInterface x) _ _ (by simp)
    fun acc hacc ancestor _ => ?_
  refine List.foldlRecOn (motive := fun acc => ∀ x ∈ acc, S.isInterface x) _ _ hacc
    fun acc hacc i hi => ?_
  exact forall_mem_collect (fun _ _ _ => hS.isInterface_of_mem_declaredBy) hacc
    (hS.isInterface_of_mem_declaredBy hi)

/-- All of a base chain after its first type are classes and structs. -/
theorem eq_or_isBaseKind_of_mem_chain (h : x ∈ S.chain t) : x = t ∨ S.isBaseKind x :=
  forall_mem_chainFrom (P := fun x => x = t ∨ S.isBaseKind x)
    (fun _ _ _ hb => Or.inr (hS.isBaseKind_of_baseOf hb)) (Or.inl rfl) x h

end WellKinded

/-! ## Base chains -/

theorem length_chainFrom_pos (steps : Nat) (t : Ty) : 0 < (S.chainFrom (steps + 1) t).length := by
  rw [chainFrom]
  split
  · exact Nat.succ_pos _
  · exact Nat.succ_pos _

/-- A base chain that is not cut off has the base of each of its types. -/
theorem mem_chainFrom_of_baseOf {steps : Nat} (hlen : (S.chainFrom (steps + 1) t).length ≤ steps)
    (hx : x ∈ S.chainFrom steps t) (hb : S.baseOf x = some b) : b ∈ S.chainFrom steps t := by
  induction steps generalizing t with
  | zero => cases hx
  | succ n ih =>
    rw [chainFrom] at hlen hx ⊢
    cases hbase : S.baseOf t with
    | none =>
      rw [hbase] at hx
      obtain rfl := List.mem_singleton.1 hx
      cases hbase.symm.trans hb
    | some base =>
      simp only [hbase, List.length_cons, Nat.add_le_add_iff_right] at hlen
      simp only [hbase, List.mem_cons] at hx ⊢
      rcases hx with rfl | hx
      · obtain rfl := Option.some.inj (hbase.symm.trans hb)
        have hpos := length_chainFrom_pos (S := S) n base
        obtain ⟨m, rfl⟩ : ∃ m, n = m + 1 := ⟨n - 1, by omega⟩
        exact Or.inr (mem_chainFrom_self m base)
      · exact Or.inr (ih hlen hx)

theorem WithinReach.mem_chain_of_baseOf (hreach : S.WithinReach) (hx : x ∈ S.chain t)
    (hb : S.baseOf x = some b) : b ∈ S.chain t :=
  mem_chainFrom_of_baseOf (hreach t) hx hb

/-- How long a base chain is depends on the declaration that heads the type. -/
theorem WellKinded.length_chainFrom_eq (hS : S.WellKinded) {decl : DeclId} (ha : a.head? = some decl)
    (hb : b.head? = some decl) (steps : Nat) :
    (S.chainFrom steps a).length = (S.chainFrom steps b).length := by
  induction steps generalizing a b decl with
  | zero => rfl
  | succ n ih =>
    have hbase : ∀ {t}, t.head? = some decl →
        (S.declBase decl = none → S.baseOf t = none) ∧ ∀ base head, S.declBase decl = some base →
          base.head? = some head → ∃ up, S.baseOf t = some up ∧ up.head? = some head := by
      intro t ht
      cases t with
      | param owner index => cases ht
      | plain d =>
        cases ht
        exact ⟨id, fun base head h hhead => ⟨base, h, hhead⟩⟩
      | applied d args =>
        cases ht
        refine ⟨fun h => by rw [baseOf, h, Option.map_none], fun base head h hhead => ?_⟩
        exact ⟨_, by rw [baseOf, h, Option.map_some], Ty.head?_instantiate hhead decl args⟩
    rw [chainFrom, chainFrom]
    cases hdecl : S.declBase decl with
    | none => rw [(hbase ha).1 hdecl, (hbase hb).1 hdecl]; rfl
    | some base =>
      obtain ⟨head, hhead⟩ := exists_head?_of_isBaseKind (hS.base hdecl)
      obtain ⟨up, hup, huphead⟩ := (hbase ha).2 base head hdecl hhead
      obtain ⟨up', hup', huphead'⟩ := (hbase hb).2 base head hdecl hhead
      rw [hup, hup']
      exact congrArg (· + 1) (ih huphead huphead')

/-! ## The closure of interfaces -/

/-- All that is seen, with those on a list, and whatever is not seen before with all that it declares. -/
structure Gathered (S : Signature) (seen l all : List Ty) : Prop where
  kept : ∀ x ∈ seen, x ∈ all
  listed : ∀ x ∈ l, x ∈ all
  closed : ∀ x ∈ all, x ∉ seen → ∀ i ∈ S.declaredBy x, i ∈ all

namespace Gathered

variable {seen l l' all all' : List Ty}

theorem nil (seen : List Ty) : S.Gathered seen [] seen :=
  ⟨fun _ => id, by simp, fun _ hx hnew => absurd hx hnew⟩

theorem append (h : S.Gathered seen l all) (h' : S.Gathered all l' all') :
    S.Gathered seen (l ++ l') all' := by
  refine ⟨fun x hx => h'.kept x (h.kept x hx), fun x hx => ?_, fun x hx hnew i hi => ?_⟩
  · rcases List.mem_append.1 hx with hx | hx
    · exact h'.kept x (h.listed x hx)
    · exact h'.listed x hx
  · by_cases hmem : x ∈ all
    · exact h'.kept i (h.closed x hmem hnew i hi)
    · exact h'.closed x hx hmem i hi

theorem foldl {β : Type} {f : List Ty → β → List Ty} {g : β → List Ty} {bs : List β}
    (h : ∀ acc, ∀ b ∈ bs, S.Gathered acc (g b) (f acc b)) (seen : List Ty) :
    S.Gathered seen (bs.flatMap g) (bs.foldl f seen) := by
  induction bs generalizing seen with
  | nil => exact nil seen
  | cons b bs ih =>
    rw [List.flatMap_cons, List.foldl_cons]
    exact (h seen b List.mem_cons_self).append
      (ih (fun acc b hb => h acc b (List.mem_cons_of_mem _ hb)) _)

theorem foldl_self {f : List Ty → Ty → List Ty} (h : ∀ acc, ∀ t ∈ l, S.Gathered acc [t] (f acc t))
    (seen : List Ty) : S.Gathered seen l (l.foldl f seen) := by
  have hall := foldl (g := fun t => [t]) h seen
  rwa [List.flatMap_singleton'] at hall

/-- Collecting an interface gathers it. -/
theorem collect (hr : S.Ranking rank) {generations : Nat} {decl : DeclId} (ht : t.head? = some decl)
    (hlt : rank decl < generations) (seen : List Ty) :
    S.Gathered seen [t] (S.collect generations seen t) := by
  induction generations generalizing t decl seen with
  | zero => omega
  | succ n ih =>
    rw [Signature.collect]
    split_ifs with hmem
    · exact ⟨fun _ => id, by simpa using hmem, fun _ hx hnew => absurd hx hnew⟩
    · have hrest : S.Gathered (seen ++ [t]) (S.declaredBy t)
          ((S.declaredBy t).foldl (S.collect n) (seen ++ [t])) := by
        refine foldl_self (fun acc i hi => ?_) _
        obtain ⟨parent, hp, hlt'⟩ := hr.lt_of_mem_declaredBy ht hi
        exact ih hp (by omega) acc
      have hself := hrest.kept t (by simp)
      refine ⟨fun x hx => hrest.kept x (by simp [hx]), by simpa using hself, fun x hx hnew => ?_⟩
      by_cases hxt : x = t
      · rw [hxt]
        exact hrest.listed
      · exact hrest.closed x hx (by simp [hnew, hxt])

/-- The closure gathers all that the types of the base chain declare. -/
theorem closureOf (hr : S.Ranking rank) (t : Ty) :
    S.Gathered [] ((S.chain t).reverse.flatMap S.declaredBy) (S.closureOf t) := by
  refine foldl (fun acc ancestor _ => foldl_self (fun acc i hi => ?_) acc) []
  obtain ⟨parent, hp, hlt⟩ := hr.lt_size_of_mem_declaredBy hi
  exact collect hr hp hlt acc

end Gathered

/-! ## Going up -/

/-- Whatever is reached from a type is on its base chain or among its interfaces. -/
theorem WithinReach.mem_of_reaches (hreach : S.WithinReach) (hS : S.WellKinded) (hr : S.Ranking rank)
    (h : ReflTransGen S.Above a b) : b ∈ S.chain a ∨ b ∈ S.closureOf a := by
  have hgathered := Gathered.closureOf hr a
  induction h with
  | refl => exact Or.inl (mem_chain_self a)
  | @tail x y _ hxy ih =>
    rcases ih with hx | hx
    · rcases hxy with hbase | hdecl
      · exact Or.inl (hreach.mem_chain_of_baseOf hx hbase)
      · exact Or.inr (hgathered.listed y (List.mem_flatMap.2 ⟨x, List.mem_reverse.2 hx, hdecl⟩))
    · rcases hxy with hbase | hdecl
      · rw [hS.baseOf_eq_none (hS.isInterface_of_mem_closureOf x hx)] at hbase
        cases hbase
      · exact Or.inr (hgathered.closed x hx (by simp) y hdecl)

/-- A class, struct or interface that is reached from a type is natively assignable from it. -/
theorem WithinReach.isAssignable_of_reaches (hreach : S.WithinReach) (hS : S.WellKinded)
    (hr : S.Ranking rank) (h : ReflTransGen S.Above a b) (hkind : (S.kindOf? b).isSome) :
    S.isAssignable a b := by
  rw [isAssignable, Bool.or_eq_true, beq_iff_eq]
  have hmem := hreach.mem_of_reaches hS hr h
  obtain ⟨kind, hk⟩ := Option.isSome_iff_exists.1 hkind
  rw [hk]
  cases kind with
  | interfaceKind =>
    rcases hmem with hchain | hclosure
    · left
      rcases hS.eq_or_isBaseKind_of_mem_chain hchain with rfl | hbase
      · rfl
      · simp [isBaseKind, hk] at hbase
    · exact Or.inr (List.contains_iff_mem.2 hclosure)
  | classKind | structKind =>
    rcases hmem with hchain | hclosure
    · exact Or.inr (List.contains_iff_mem.2 hchain)
    · have hint := hS.isInterface_of_mem_closureOf b hclosure
      simp [isInterface, hk] at hint

/-- A type without parameters can stand for all that it is natively assignable to. -/
theorem Scoped.sub_of_isAssignable {arity : DeclId → Nat} (hS : S.Scoped arity)
    (ha : a.isOpen = false) (hconcrete : a.Concrete arity) (hkind : (S.kindOf? b).isSome)
    (h : S.isAssignable a b) : S.Sub a b := by
  refine sub_iff_follows.2 ?_
  cases b with
  | plain decl => exact .native rfl ha h
  | param owner index => cases hkind
  | applied decl args =>
    obtain ⟨kind, hk⟩ := Option.isSome_iff_exists.1 hkind
    have hbuilt : (Ty.applied decl args).isBuiltFrom decl := beq_self_eq_true decl
    cases kind with
    | classKind | structKind =>
      have hbase : S.isBaseKind (.applied decl args) := by simp [isBaseKind, hk]
      exact .base hbase (mem_chain_of_isAssignable hbase h) hbuilt
    | interfaceKind =>
      have hint : S.isInterface (.applied decl args) := by simp [isInterface, hk]
      have hmem := mem_closureOf_of_isAssignable hint h
      have hargs : (Ty.applied decl args).Concrete arity := by
        rcases List.mem_cons.1 hmem with rfl | hmem
        · exact hconcrete
        · exact hS.concrete_of_mem_closureOf hconcrete _ hmem
      -- the target is a candidate for itself: none of its arguments is a parameter
      refine .interface hint hmem ⟨hbuilt, List.forall₂_same.2 fun arg harg => ?_⟩
      exact (meets_iff_accepts (hargs.2 arg harg)).2 (Or.inl rfl)

theorem Scoped.sub_of_reaches {arity : DeclId → Nat} (hS : S.Scoped arity) (hreach : S.WithinReach)
    (hkinds : S.WellKinded) (hr : S.Ranking rank) (ha : a.isOpen = false)
    (hconcrete : a.Concrete arity) (hkind : (S.kindOf? b).isSome) (h : ReflTransGen S.Above a b) :
    S.Sub a b :=
  hS.sub_of_isAssignable ha hconcrete hkind (hreach.isAssignable_of_reaches hkinds hr h hkind)

end Signature

namespace Universe

variable {u v : Universe}

theorem Built.wellKinded (h : u.Built) : u.signature.WellKinded := by
  have hu := h.valid.consistent
  refine ⟨fun {decl t} ht => ?_, fun {decl t} ht => hu.exists_ranking.isInterface_of_mem ht,
    fun {decl} hk => ?_⟩
  · obtain ⟨base, hbase, rfl⟩ := Option.map_eq_some_iff.1 ht
    obtain ⟨d, hd, hb⟩ := Option.bind_eq_some_iff.1 hbase
    have hkind := hu.base hd hb
    rwa [hu.isBaseKind_of_reads (reads_typeAt (contains_of_isBaseKind hkind))] at hkind
  · obtain ⟨d, hd, hdk⟩ := Option.map_eq_some_iff.1 hk
    have hnone := h.wellDeclared.no_base hd (by rw [Declaration.isInterface, hdk]; rfl)
    simp [signature, hd, hnone]

/-- No known type has a base chain that is longer than a walk goes. -/
def WithinReach (u : Universe) : Prop :=
  ∀ ty, u.contains ty → (u.signature.chainFrom (Limits.hierarchy.depth + 1) (u.typeAt ty)).length ≤
    Limits.hierarchy.depth

/-- All types that can be built have base chains as long as those of known types. -/
theorem Built.withinReach (h : u.Built) (hreach : u.WithinReach) : u.signature.WithinReach := by
  have hu := h.valid.consistent
  have hone : ∀ t, u.signature.baseOf t = none →
      (u.signature.chainFrom (Limits.hierarchy.depth + 1) t).length ≤ Limits.hierarchy.depth := by
    intro t ht
    rw [Signature.chainFrom, ht]
    exact (by decide : 1 ≤ Limits.hierarchy.depth)
  have hdecl : ∀ {t decl}, t.head? = some decl →
      (u.signature.chainFrom (Limits.hierarchy.depth + 1) t).length ≤ Limits.hierarchy.depth := by
    intro t decl ht
    cases hd : u.catalog.get? decl with
    | none =>
      have hbase : u.signature.declBase decl = none := by simp [signature, hd]
      refine hone t ?_
      cases t with
      | plain d =>
        cases ht
        exact hbase
      | applied d args =>
        cases ht
        rw [Signature.baseOf, hbase, Option.map_none]
      | param owner index => cases ht
    | some d =>
      obtain ⟨own, -, hown⟩ := h.valid.owned hd
      rw [h.wellKinded.length_chainFrom_eq ht (Ty.head?_own decl d.arity), ← hown.2]
      exact hreach own hown.1
  intro t
  cases t with
  | plain decl => exact hdecl rfl
  | applied decl args => exact hdecl rfl
  | param owner index =>
    cases hp : u.parameter? owner index with
    | none =>
      refine hone _ ?_
      simp [Signature.baseOf, signature, hp]
    | some p =>
      -- the parameter is an argument of the own type of its owner, so it is known
      obtain ⟨d, hd, hget⟩ := Option.bind_eq_some_iff.1 hp
      obtain ⟨hlt, -⟩ := List.getElem?_eq_some_iff.1 hget
      obtain ⟨own, -, hown⟩ := h.valid.owned hd
      obtain ⟨ty, -, hty⟩ := exists_of_forall₂_of_getElem? (hu.arguments_own hown).flip
        (a := .param owner index) (i := index) (by simp [Declaration.arity, hlt])
      rw [← hty.2]
      exact hreach ty hty.1

/-- The base of a type is headed by a declaration that the type's declaration inherits from. -/
theorem Consistent.inherits_of_baseOf (hu : u.Consistent) {t b : Ty} {decl : DeclId}
    (ht : t.head? = some decl) (hb : u.signature.baseOf t = some b) :
    ∃ parent, b.head? = some parent ∧ u.Inherits decl parent := by
  have hdecl : ∀ {base}, u.signature.declBase decl = some base →
      ∃ parent, base.head? = some parent ∧ u.Inherits decl parent := by
    intro base hbase
    obtain ⟨ty, hty, rfl⟩ := Option.map_eq_some_iff.1 hbase
    obtain ⟨d, hd, hb⟩ := Option.bind_eq_some_iff.1 hty
    have hkind := hu.base hd hb
    have hr := reads_typeAt (contains_of_isBaseKind hkind)
    rw [hu.isBaseKind_of_reads hr] at hkind
    obtain ⟨parent, hp⟩ := Signature.exists_head?_of_isBaseKind hkind
    exact ⟨parent, hp, inherits_iff.2 ⟨d, hd, ty, Or.inl hb, (hu.head?_of_reads hr).trans hp⟩⟩
  cases t with
  | param owner index => cases ht
  | plain d =>
    cases ht
    exact hdecl hb
  | applied d args =>
    cases ht
    obtain ⟨base, hbase, rfl⟩ := Option.map_eq_some_iff.1 hb
    obtain ⟨parent, hp, hinherits⟩ := hdecl hbase
    exact ⟨parent, Ty.head?_instantiate hp decl args, hinherits⟩

/-- A base chain has no more types than its first one has ancestors, and the first one. -/
theorem Consistent.length_chainFrom_le (hu : u.Consistent) {t : Ty} {decl : DeclId}
    (ht : t.head? = some decl) (steps : Nat) :
    (u.signature.chainFrom steps t).length ≤ u.rank decl + 1 := by
  induction steps generalizing t decl with
  | zero => exact Nat.zero_le _
  | succ n ih =>
    rw [Signature.chainFrom]
    cases hb : u.signature.baseOf t with
    | none => exact Nat.succ_le_succ (Nat.zero_le _)
    | some b =>
      obtain ⟨parent, hp, hinherits⟩ := hu.inherits_of_baseOf ht hb
      have hlen := ih hp
      have hlt := hu.rank_lt_of_inherits hinherits
      rw [List.length_cons]
      omega

/-- With fewer declarations than a walk goes, every base chain ends within its reach. -/
theorem Consistent.withinReach (hu : u.Consistent) (hsize : u.catalog.size < Limits.hierarchy.depth) :
    u.WithinReach := by
  have hdecl : ∀ {t decl}, t.head? = some decl → decl ∈ u.declIds → ∀ steps,
      (u.signature.chainFrom steps t).length ≤ u.catalog.size := fun ht hmem steps =>
    (hu.length_chainFrom_le ht steps).trans (hu.rank_lt_size hmem)
  intro ty hty
  have hr := reads_typeAt hty
  generalize u.typeAt ty = t at hr
  cases t with
  | plain decl =>
    obtain ⟨d, hd, -⟩ := hu.fits (hu.shape?_of_reads_plain hr)
    exact (hdecl rfl (mem_declIds_of_get? hd) _).trans hsize.le
  | applied decl ts =>
    obtain ⟨d, hd, -⟩ := hu.exists_catalog_of_reads hr
    exact (hdecl rfl (mem_declIds_of_get? hd) _).trans hsize.le
  | param owner index =>
    rw [Signature.chainFrom]
    cases hb : u.signature.baseOf (.param owner index) with
    | none => exact (by decide : 1 ≤ Limits.hierarchy.depth)
    | some b =>
      have hkind : u.signature.isBaseKind b := List.find?_some hb
      obtain ⟨decl, hdh⟩ := Signature.exists_head?_of_isBaseKind hkind
      have hmem : decl ∈ u.declIds := by
        cases hd : u.catalog.get? decl with
        | none => simp [Signature.isBaseKind, Signature.kindOf?, hdh, signature, hd] at hkind
        | some d => exact mem_declIds_of_get? hd
      exact Nat.succ_le_of_lt ((hdecl hdh hmem _).trans_lt hsize)

end Universe

end Subtyping
