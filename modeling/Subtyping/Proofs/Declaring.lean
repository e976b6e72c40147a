import Subtyping.Proofs.Hierarchy
import Subtyping.Proofs.Inheritance

/-!
# Declarations keep a universe valid

A universe is `Valid` if it is consistent and every declaration has its own type. Three operations
change a declaration in place (`Universe.Valid.revise`), and forget all closures. A base or interface
that the checks let through closes no circle (`Universe.Consistent.not_transGen_revised`). A new
declaration changes nothing for the types that are there, and room for one more generation of
interfaces changes no closure (`Signature.closureOf_of_size_succ`).
-/

namespace Subtyping

open Relation UniverseM

/-! ## What the checks let through -/

theorem exists_of_bind_eq_ok {ε α β : Type} {x : Except ε α} {f : α → Except ε β} {b : β}
    (h : (x >>= f) = .ok b) : ∃ a, x = .ok a ∧ f a = .ok b := by
  cases x with
  | ok a => exact ⟨a, rfl, h⟩
  | error e => cases h

namespace Universe

variable {u : Universe} {decl : DeclId} {d : Declaration}

theorem declarationOf_eq_ok {ty : Handle} (h : u.declarationOf ty = .ok (decl, d)) :
    u.head? ty = some decl ∧ u.catalog.get? decl = some d := by
  unfold declarationOf at h
  split at h
  · rename_i shape hs
    split at h
    · rename_i decl' hh
      split at h
      · rename_i d' hd
        cases h
        exact ⟨by rw [head?, hs, Option.bind_some, hh], hd⟩
      · cases h
    · cases h
  · cases h

theorem fits_of_parameterShape {definition : Handle} {index : Nat} {shape : Shape}
    (h : u.parameterShape definition index = .ok shape) : u.Fits shape := by
  obtain ⟨⟨decl, d⟩, hdecl, h⟩ := exists_of_bind_eq_ok h
  dsimp only at h
  split at h
  · split at h
    · rename_i hlt
      cases h
      exact ⟨d, (declarationOf_eq_ok hdecl).2, hlt⟩
    · cases h
  · cases h

theorem fits_of_applicationShape {definition : Handle} {args : List Handle} {shape : Shape}
    (h : u.applicationShape definition args = .ok shape) : u.Fits shape := by
  obtain ⟨⟨decl, d⟩, hdecl, h⟩ := exists_of_bind_eq_ok h
  dsimp only at h
  split at h
  · rename_i hgen
    split at h
    · rename_i hlen
      split at h
      · cases h
      · rename_i hfind
        cases h
        refine ⟨⟨d, (declarationOf_eq_ok hdecl).2, hlen⟩, ?_, fun a ha => ?_⟩
        · rintro rfl
          rw [Declaration.isGeneric, List.eq_nil_of_length_eq_zero hlen] at hgen
          cases hgen
        · have hnone := Option.eq_none_iff_forall_ne_some.2 hfind
          simpa using List.find?_eq_none.1 hnone a ha
    · cases h
  · cases h

theorem ownDeclarationOf_eq_ok {ty : Handle} (h : u.ownDeclarationOf ty = .ok (decl, d)) :
    u.head? ty = some decl ∧ u.catalog.get? decl = some d ∧ u.ownType? decl = some ty := by
  obtain ⟨⟨decl', d'⟩, hdecl, h⟩ := exists_of_bind_eq_ok h
  dsimp only at h
  split at h
  · rename_i hown
    cases h
    obtain ⟨hhead, hd⟩ := declarationOf_eq_ok hdecl
    exact ⟨hhead, hd, eq_of_beq hown⟩
  · cases h

theorem checkName_eq_ok_iff {name : String} :
    u.checkName name = .ok () ↔ u.catalog.named? name = none := by
  rw [checkName]
  cases u.catalog.named? name with
  | none => exact iff_of_true rfl rfl
  | some decl => exact iff_of_false (by rintro ⟨⟩) (by rintro ⟨⟩)

theorem checkScope_eq_ok {ty : Handle} (h : u.checkScope decl d ty = .ok ()) :
    u.anyOwner (· != decl) ty = false := by
  unfold checkScope at h
  split at h
  · cases h
  · rename_i hany
    exact Bool.eq_false_iff.2 hany

theorem checkBase_eq_ok {declared base : Handle} (h : u.checkBase declared base = .ok decl) :
    ∃ d, u.ownDeclarationOf declared = .ok (decl, d) ∧ d.isInterface = false ∧ u.isBaseKind base ∧
      u.anyOwner (· != decl) base = false ∧ (u.head? base).any (u.inheritsFrom · decl) = false := by
  obtain ⟨⟨decl', d⟩, hdecl, h⟩ := exists_of_bind_eq_ok h
  dsimp only at h
  split at h
  · cases h
  rename_i hclass
  split at h
  · split at h
    · rename_i hkind
      obtain ⟨_, hscope, h⟩ := exists_of_bind_eq_ok h
      split at h
      · cases h
      · rename_i hany
        cases h
        exact ⟨d, hdecl, Bool.eq_false_iff.2 hclass, hkind, checkScope_eq_ok hscope,
          Bool.eq_false_iff.2 hany⟩
    · cases h
  · cases h

theorem checkInterface_eq_ok {declared interface : Handle}
    (h : u.checkInterface declared interface = .ok (decl, d)) :
    u.ownDeclarationOf declared = .ok (decl, d) ∧ u.isInterface interface ∧
      u.anyOwner (· != decl) interface = false ∧
      (u.head? interface).any (u.inheritsFrom · decl) = false := by
  obtain ⟨⟨decl', d'⟩, hdecl, h⟩ := exists_of_bind_eq_ok h
  dsimp only at h
  split at h
  · split at h
    · rename_i hkind
      obtain ⟨_, hscope, h⟩ := exists_of_bind_eq_ok h
      split at h
      · cases h
      · rename_i hany
        cases h
        exact ⟨hdecl, hkind, checkScope_eq_ok hscope, Bool.eq_false_iff.2 hany⟩
    · cases h
  · cases h

theorem checkConstraint_eq_ok {parameter bound : Handle} {index : Nat}
    (h : u.checkConstraint parameter bound = .ok (decl, index)) :
    u.shape? parameter = some (.param decl index) ∧ u.contains bound ∧
      u.anyOwner (· != decl) bound = false := by
  unfold checkConstraint at h
  split at h
  · rename_i shape hs
    split at h
    · dsimp only at h
      split at h
      · rename_i hbound
        split at h
        · obtain ⟨_, hscope, h⟩ := exists_of_bind_eq_ok h
          cases h
          exact ⟨hs, hbound, checkScope_eq_ok hscope⟩
        · cases h
      · cases h
    · cases h
  · cases h

end Universe

/-! ## Catalogs -/

namespace Catalog

theorem get?_empty (decl : DeclId) : ({} : Catalog).get? decl = none := by
  unfold get?
  split <;> simp

theorem get?_modify (c : Catalog) (decl x : DeclId) (f : Declaration → Declaration) :
    (c.modify decl f).get? x = if decl = x then (c.get? x).map f else c.get? x := by
  obtain ⟨n⟩ := decl
  obtain ⟨m⟩ := x
  cases n with
  | zero =>
    cases m with
    | zero => simp [get?]
    | succ m => simp [modify]
  | succ n =>
    cases m with
    | zero => simp [get?]
    | succ m => simp [modify, get?, Array.getElem?_modify]

theorem size_modify (c : Catalog) (decl : DeclId) (f : Declaration → Declaration) :
    (c.modify decl f).size = c.size := by
  unfold modify
  split
  · rfl
  · simp [size]

theorem get?_add (c : Catalog) (d : Declaration) (x : DeclId) :
    (c.add d).2.get? x = if x = (c.add d).1 then some d else c.get? x := by
  obtain ⟨n⟩ := x
  cases n with
  | zero => simp [add, get?]
  | succ n => simp [add, get?, Array.getElem?_push]

theorem size_add (c : Catalog) (d : Declaration) : (c.add d).2.size = c.size + 1 := by
  simp [add, size]

theorem mem_entries_of_get? {c : Catalog} {decl : DeclId} {d : Declaration} (h : c.get? decl = some d) :
    d ∈ c.entries := by
  unfold get? at h
  split at h
  · cases h
  · exact Array.mem_of_getElem? h

theorem get?_add_self (c : Catalog) (d : Declaration) : c.get? (c.add d).1 = none := by
  simp [add, get?]

end Catalog

/-- Every declaration has its own type, and no other types are listed as such. -/
structure Universe.Valid (u : Universe) : Prop where
  consistent : u.Consistent
  owned : u.Owned
  aligned : u.ownTypes.size = u.catalog.size

theorem Universe.Grows.valid {u v : Universe} (h : u.Grows v) (hu : u.Valid) : v.Valid :=
  ⟨h.after, h.owned hu.owned, by rw [h.ownTypes, h.catalog, hu.aligned]⟩

/-- The own types on record are those of declarations. -/
theorem Universe.Valid.reads_of_ownType? {u : Universe} {ty : Handle} (hu : u.Valid) {decl : DeclId}
    (h : u.ownType? decl = some ty) :
    ∃ d, u.catalog.get? decl = some d ∧ u.Reads ty (.own decl d.arity) := by
  obtain ⟨num⟩ := decl
  cases num with
  | zero => cases h
  | succ n =>
    have hn : n < u.catalog.entries.size := by
      obtain ⟨hn, -⟩ := Array.getElem?_eq_some_iff.1 h
      exact hn.trans_eq hu.aligned
    have hd : u.catalog.get? ⟨n + 1⟩ = some u.catalog.entries[n] := Array.getElem?_eq_getElem hn
    obtain ⟨own, hown, hr⟩ := hu.owned hd
    cases hown.symm.trans h
    exact ⟨_, hd, hr⟩

/-! ## Changing a declaration in place -/

namespace Universe

variable {u : Universe} {decl : DeclId} {f : Declaration → Declaration}

/-- A universe with a declaration changed and all closures forgotten. -/
def revised (u : Universe) (decl : DeclId) (f : Declaration → Declaration) : Universe :=
  { u with catalog := u.catalog.modify decl f, closures := ∅ }

theorem get?_revised (u : Universe) (decl x : DeclId) (f : Declaration → Declaration) :
    (u.revised decl f).catalog.get? x =
      if decl = x then (u.catalog.get? x).map f else u.catalog.get? x :=
  u.catalog.get?_modify decl x f

/-- A declaration after the change was there before, changed or not. -/
theorem of_get?_revised {x : DeclId} {d : Declaration}
    (h : (u.revised decl f).catalog.get? x = some d) :
    ∃ d₀, u.catalog.get? x = some d₀ ∧ (d = d₀ ∨ decl = x ∧ d = f d₀) := by
  rw [get?_revised] at h
  split_ifs at h with he
  · obtain ⟨d₀, hd₀, rfl⟩ := Option.map_eq_some_iff.1 h
    exact ⟨d₀, hd₀, Or.inr ⟨he, rfl⟩⟩
  · exact ⟨d, h, Or.inl rfl⟩

theorem exists_get?_revised (decl : DeclId) {x : DeclId} {d : Declaration} (harity : ∀ d, (f d).arity = d.arity)
    (h : u.catalog.get? x = some d) :
    ∃ d', (u.revised decl f).catalog.get? x = some d' ∧ d'.arity = d.arity := by
  rw [get?_revised, h]
  split_ifs
  · exact ⟨f d, rfl, harity d⟩
  · exact ⟨d, rfl, rfl⟩

theorem kind?_revised (hkind : ∀ d, (f d).kind = d.kind) :
    (u.revised decl f).kind? = u.kind? := by
  funext ty
  show ((u.head? ty).bind fun x => ((u.revised decl f).catalog.get? x).map (·.kind)) = _
  unfold kind?
  congr 1
  funext x
  rw [get?_revised]
  split_ifs
  · rw [Option.map_map]
    exact congrArg (Option.map · (u.catalog.get? x)) (funext hkind)
  · rfl

theorem inherits_of_revised {x y : DeclId} (h : (u.revised decl f).Inherits x y) :
    u.Inherits x y ∨ x = decl ∧ ∃ d, u.catalog.get? decl = some d ∧
      ∃ ty, ((f d).base = some ty ∨ ty ∈ (f d).interfaces) ∧ u.head? ty = some y := by
  obtain ⟨d, hd, ty, hty, hh⟩ := inherits_iff.1 h
  obtain ⟨d₀, hd₀, rfl | ⟨rfl, rfl⟩⟩ := of_get?_revised hd
  · exact Or.inl (inherits_iff.2 ⟨d, hd₀, ty, hty, hh⟩)
  · exact Or.inr ⟨rfl, d₀, hd₀, ty, hty, hh⟩

/-- A change that keeps kind and arity, and adds only supertypes and bounds that are known and of
the right kind, keeps a universe valid if it closes no circle. -/
theorem Valid.revise (hu : u.Valid) (hkind : ∀ d, (f d).kind = d.kind)
    (harity : ∀ d, (f d).arity = d.arity)
    (hbase : ∀ d ty, (f d).base = some ty → d.base = some ty ∨ u.isBaseKind ty)
    (hints : ∀ d, ∀ ty ∈ (f d).interfaces, ty ∈ d.interfaces ∨ u.isInterface ty)
    (hbounds : ∀ d, ∀ p ∈ (f d).parameters, ∀ ty ∈ p.constraints,
      (∃ q ∈ d.parameters, ty ∈ q.constraints) ∨ u.contains ty)
    (hacyc : ∀ x, ¬ TransGen (u.revised decl f).Inherits x x) : (u.revised decl f).Valid := by
  have hc := hu.consistent
  have hk : (u.revised decl f).kind? = u.kind? := kind?_revised hkind
  refine ⟨⟨hc.table, fun {ty shape} hs => ?_, fun {x d ty} hd hb => ?_, fun {x d} hd ty hi => ?_,
    fun {x d} hd p hp ty hb => ?_, hacyc, fun {ty closure} h => ?_⟩, fun {x d} hd => ?_, ?_⟩
  · have hf := hc.fits hs
    cases shape with
    | plain x =>
      obtain ⟨d, hd, har⟩ := hf
      obtain ⟨d', hd', har'⟩ := exists_get?_revised decl harity hd
      exact ⟨d', hd', har'.trans har⟩
    | applied x args =>
      obtain ⟨⟨d, hd, har⟩, hrest⟩ := hf
      obtain ⟨d', hd', har'⟩ := exists_get?_revised decl harity hd
      exact ⟨⟨d', hd', har'.trans har⟩, hrest⟩
    | param x index =>
      obtain ⟨d, hd, hlt⟩ := hf
      obtain ⟨d', hd', har'⟩ := exists_get?_revised decl harity hd
      exact ⟨d', hd', by rwa [har']⟩
  · rw [isBaseKind, hk]
    obtain ⟨d₀, hd₀, rfl | ⟨-, rfl⟩⟩ := of_get?_revised hd
    · exact hc.base hd₀ hb
    · exact (hbase d₀ ty hb).elim (hc.base hd₀) id
  · rw [isInterface, hk]
    obtain ⟨d₀, hd₀, rfl | ⟨-, rfl⟩⟩ := of_get?_revised hd
    · exact hc.interfaces hd₀ ty hi
    · exact (hints d₀ ty hi).elim (hc.interfaces hd₀ ty) id
  · obtain ⟨d₀, hd₀, rfl | ⟨-, rfl⟩⟩ := of_get?_revised hd
    · exact hc.bounds hd₀ p hp ty hb
    · rcases hbounds d₀ p hp ty hb with ⟨q, hq, hb⟩ | hcon
      · exact hc.bounds hd₀ q hq ty hb
      · exact hcon
  · simp [revised] at h
  · obtain ⟨d₀, hd₀, hd'⟩ := of_get?_revised hd
    obtain ⟨ty, hty, hr⟩ := hu.owned hd₀
    refine ⟨ty, hty, hr.1, hr.2.trans ?_⟩
    rcases hd' with rfl | ⟨-, rfl⟩
    · rfl
    · rw [harity]
  · exact hu.aligned.trans (u.catalog.size_modify decl f).symm

/-- A supertype that was let through closes no circle. -/
theorem Consistent.not_transGen_revised (hu : u.Consistent) {ty : Handle} {k : Kind}
    (hk : u.kind? ty = some k) (hany : (u.head? ty).any (u.inheritsFrom · decl) = false)
    (hsuper : ∀ d s, (f d).base = some s ∨ s ∈ (f d).interfaces →
      (d.base = some s ∨ s ∈ d.interfaces) ∨ s = ty) (x : DeclId) :
    ¬ TransGen (u.revised decl f).Inherits x x := by
  obtain ⟨parent, hp, -⟩ := Option.bind_eq_some_iff.1 hk
  rw [hp, Option.any_some] at hany
  refine not_transGen_self_of_edge (a := decl) (b := parent) (r := u.Inherits) ?_ hu.acyclic ?_ x
  · intro x y h
    rcases inherits_of_revised h with h | ⟨rfl, d, hd, s, hs, hh⟩
    · exact Or.inl h
    · rcases hsuper d s hs with hold | rfl
      · exact Or.inl (inherits_iff.2 ⟨d, hd, s, hold, hh⟩)
      · exact Or.inr ⟨rfl, Option.some.inj (hh.symm.trans hp)⟩
  · intro h
    rw [hu.inheritsFrom_of_reaches (mem_declIds_of_kind? hk hp) h] at hany
    cases hany

theorem exists_kind?_of_isBaseKind {ty : Handle} (h : u.isBaseKind ty) :
    ∃ k, u.kind? ty = some k := by
  unfold isBaseKind at h
  split at h
  · exact ⟨_, ‹_›⟩
  · exact ⟨_, ‹_›⟩
  · cases h
  · cases h

theorem Valid.withBase (hu : u.Valid) {base : Handle} (hb : u.isBaseKind base)
    (hany : (u.head? base).any (u.inheritsFrom · decl) = false) :
    ((u.withBase decl base).dropClosures).Valid := by
  obtain ⟨k, hk⟩ := exists_kind?_of_isBaseKind hb
  refine Valid.revise (f := fun d => { d with base := some base }) hu (fun _ => rfl)
    (fun _ => rfl) (fun d ty h => Or.inr ?_) (fun d ty h => Or.inl h)
    (fun d p hp ty h => Or.inl ⟨p, hp, h⟩) (hu.consistent.not_transGen_revised hk hany ?_)
  · rwa [← Option.some.inj h]
  · rintro d s (h | h)
    · exact Or.inr (Option.some.inj h).symm
    · exact Or.inl (Or.inr h)

theorem mem_interfaces_withInterface {d : Declaration} {ty interface : Handle}
    (h : ty ∈ (d.withInterface interface).interfaces) : ty ∈ d.interfaces ∨ ty = interface := by
  unfold Declaration.withInterface at h
  split_ifs at h
  · exact Or.inl h
  · simpa using h

/-- Listing an interface changes nothing else about a declaration. -/
theorem frame_withInterface (d : Declaration) (interface : Handle) :
    (d.withInterface interface).kind = d.kind ∧ (d.withInterface interface).base = d.base ∧
      (d.withInterface interface).parameters = d.parameters := by
  unfold Declaration.withInterface
  split_ifs <;> exact ⟨rfl, rfl, rfl⟩

theorem Valid.withInterface (hu : u.Valid) {interface : Handle} (hi : u.isInterface interface)
    (hany : (u.head? interface).any (u.inheritsFrom · decl) = false) :
    ((u.withInterface decl interface).dropClosures).Valid := by
  have hsame := fun d : Declaration => frame_withInterface d interface
  refine Valid.revise (f := (·.withInterface interface)) hu (fun d => (hsame d).1)
    (fun d => by rw [Declaration.arity, (hsame d).2.2]; rfl) (fun d ty h => ?_) (fun d ty h => ?_)
    (fun d p hp ty h => ?_)
    (hu.consistent.not_transGen_revised (by simpa [isInterface] using hi) hany ?_)
  · rw [(hsame d).2.1] at h
    exact Or.inl h
  · rcases mem_interfaces_withInterface h with h | rfl
    · exact Or.inl h
    · exact Or.inr hi
  · rw [(hsame d).2.2] at hp
    exact Or.inl ⟨p, hp, h⟩
  · rintro d s (h | h)
    · rw [(hsame d).2.1] at h
      exact Or.inl (Or.inl h)
    · exact (mem_interfaces_withInterface h).imp_left Or.inr

theorem mem_constraints_withConstraint {d : Declaration} {index : Nat} {bound ty : Handle}
    {p : Parameter} (hp : p ∈ (d.withConstraint index bound).parameters) (h : ty ∈ p.constraints) :
    (∃ q ∈ d.parameters, ty ∈ q.constraints) ∨ ty = bound := by
  obtain ⟨i, hi⟩ := List.mem_iff_getElem?.1 hp
  rw [Declaration.withConstraint, List.getElem?_modify] at hi
  obtain ⟨q, hq, rfl⟩ := Option.map_eq_some_iff.1 hi
  have hmem := List.mem_of_getElem? hq
  split_ifs at h
  · exact Or.inl ⟨q, hmem, h⟩
  · rcases List.mem_append.1 h with h | h
    · exact Or.inl ⟨q, hmem, h⟩
    · exact Or.inr (List.mem_singleton.1 h)
  · exact Or.inl ⟨q, hmem, h⟩

theorem Valid.withConstraint (hu : u.Valid) (index : Nat) {bound : Handle}
    (hb : u.contains bound) : ((u.withConstraint decl index bound).dropClosures).Valid := by
  refine Valid.revise (f := (·.withConstraint index bound)) hu (fun _ => rfl)
    (fun d => by simp [Declaration.arity, Declaration.withConstraint]) (fun d ty h => Or.inl h)
    (fun d ty h => Or.inl h) (fun d p hp ty h => ?_) fun x h => ?_
  · rcases mem_constraints_withConstraint hp h with h | rfl
    · exact Or.inl h
    · exact Or.inr hb
  · refine hu.consistent.acyclic x (TransGen.mono (fun x y hxy => ?_) _ _ h)
    rcases inherits_of_revised hxy with h | ⟨rfl, d, hd, s, hs, hh⟩
    · exact h
    · exact inherits_iff.2 ⟨d, hd, s, hs, hh⟩

end Universe

/-! ## A new declaration -/

/-- With the same hierarchy and room for one more generation, all closures stay. -/
theorem Signature.closureOf_of_size_succ {S S' : Signature} {rank : DeclId → Nat}
    (hr : S.Ranking rank) (hbase : S'.baseOf = S.baseOf) (hdecl : S'.declaredBy = S.declaredBy)
    (hsize : S'.size = S.size + 1) (t : Ty) : S'.closureOf t = S.closureOf t := by
  have hchain : ∀ steps t, S'.chainFrom steps t = S.chainFrom steps t := by
    intro steps
    induction steps with
    | zero => intro t; rfl
    | succ n ih =>
      intro t
      rw [chainFrom, chainFrom, hbase]
      cases S.baseOf t with
      | none => rfl
      | some base => exact congrArg (t :: ·) (ih base)
  have hcollect : ∀ generations, S'.collect generations = S.collect generations := by
    intro generations
    induction generations with
    | zero => rfl
    | succ n ih =>
      funext seen t
      rw [collect, collect, hdecl, ih]
  unfold closureOf chain
  rw [hchain, hdecl, hsize, hcollect]
  refine List.foldl_ext _ _ _ fun seen ancestor _ => List.foldl_ext _ _ _ fun seen i hi => ?_
  obtain ⟨parent, hp, hlt⟩ := hr.lt_size_of_mem_declaredBy hi
  exact collect_succ hr hp hlt seen

namespace Universe

variable {u : Universe} {d : Declaration}

/-- A universe with one more declaration, which has no type yet. -/
def enrolled (u : Universe) (d : Declaration) : Universe :=
  { u with catalog := (u.catalog.add d).2 }

/-- Declarations that are there stay. -/
theorem get?_enrolled {decl : DeclId} {d' : Declaration} (h : u.catalog.get? decl = some d') :
    (u.enrolled d).catalog.get? decl = some d' := by
  have hne : decl ≠ (u.catalog.add d).1 := by
    rintro rfl
    rw [Catalog.get?_add_self] at h
    cases h
  rw [enrolled, Catalog.get?_add, if_neg hne, h]

/-- A declaration other than the new one is as it was. -/
theorem get?_enrolled_or (u : Universe) (d : Declaration) (decl : DeclId) :
    (u.enrolled d).catalog.get? decl = u.catalog.get? decl ∨
      (u.enrolled d).catalog.get? decl = some d ∧ u.catalog.get? decl = none := by
  rw [enrolled, Catalog.get?_add]
  split_ifs with he
  · rw [he, Catalog.get?_add_self]
    exact Or.inr ⟨rfl, rfl⟩
  · exact Or.inl rfl

/-- Types are headed by declarations that are there. -/
theorem Consistent.exists_get?_of_head? (hu : u.Consistent) {ty : Handle} {decl : DeclId}
    (h : u.head? ty = some decl) : ∃ d, u.catalog.get? decl = some d := by
  obtain ⟨shape, hs, hshape⟩ := Option.bind_eq_some_iff.1 h
  have hf := hu.fits hs
  cases shape with
  | plain x =>
    obtain rfl : x = decl := Option.some.inj hshape
    exact ⟨_, hf.choose_spec.1⟩
  | applied x args =>
    obtain rfl : x = decl := Option.some.inj hshape
    exact ⟨_, hf.1.choose_spec.1⟩
  | param x index => cases hshape

theorem Consistent.kind?_enrolled (hu : u.Consistent) : (u.enrolled d).kind? = u.kind? := by
  funext ty
  show ((u.head? ty).bind fun x => ((u.enrolled d).catalog.get? x).map (·.kind)) = u.kind? ty
  cases hh : u.head? ty with
  | none => rw [kind?, hh]; rfl
  | some decl =>
    obtain ⟨d', hd'⟩ := hu.exists_get?_of_head? hh
    rw [kind?, hh, Option.bind_some, Option.bind_some, get?_enrolled hd', hd']

variable (hbase : d.base = none) (hints : d.interfaces = [])
  (hbounds : ∀ p ∈ d.parameters, p.constraints = [])
include hbase hints hbounds

/-- A bare declaration adds nothing to the hierarchy. -/
theorem Consistent.signature_enrolled (hu : u.Consistent) :
    (u.enrolled d).signature.baseOf = u.signature.baseOf ∧
      (u.enrolled d).signature.declaredBy = u.signature.declaredBy := by
  have hb : (u.enrolled d).signature.declBase = u.signature.declBase := by
    funext decl
    show (((u.enrolled d).catalog.get? decl).bind _).map u.typeAt = _
    rcases u.get?_enrolled_or d decl with h | ⟨h, h'⟩
    · rw [h]; rfl
    · simp [h, h', hbase, signature]
  have hi : (u.enrolled d).signature.declInterfaces = u.signature.declInterfaces := by
    funext decl
    show ((((u.enrolled d).catalog.get? decl).map _).getD []).map u.typeAt = _
    rcases u.get?_enrolled_or d decl with h | ⟨h, h'⟩
    · rw [h]; rfl
    · simp [h, h', hints, signature]
  have hbd : (u.enrolled d).signature.bounds = u.signature.bounds := by
    funext owner index
    show ((((u.enrolled d).parameter? owner index).map _).getD []).map u.typeAt = _
    rcases u.get?_enrolled_or d owner with h | ⟨h, h'⟩
    · rw [parameter?, h]; rfl
    · have hnil : ((d.parameters[index]?).map (·.constraints)).getD [] = [] := by
        cases hp : d.parameters[index]? with
        | none => rfl
        | some p => exact hbounds p (List.mem_of_getElem? hp)
      simp [parameter?, h, h', hnil, signature]
  -- The bounds of a parameter are types that are there, whose kinds stay.
  have hkind : ∀ {owner index}, ∀ t ∈ u.signature.bounds owner index,
      (u.enrolled d).signature.kindOf? t = u.signature.kindOf? t := by
    intro owner index t ht
    obtain ⟨b, hb, rfl⟩ := List.mem_map.1 ht
    have hcon : u.contains b := by
      cases hp : u.parameter? owner index with
      | none => simp [hp] at hb
      | some p =>
        obtain ⟨d', hd', hmem⟩ := Option.bind_eq_some_iff.1 hp
        exact hu.bounds hd' p (List.mem_of_getElem? hmem) b (by simpa [hp] using hb)
    rw [← hu.kind?_of_reads (reads_typeAt hcon), ← hu.kind?_enrolled (d := d)]
    show _ = ((u.head? b).bind _)
    rw [hu.head?_of_reads (reads_typeAt hcon)]
    rfl
  refine ⟨funext fun t => ?_, funext fun t => ?_⟩
  · cases t with
    | plain decl => rw [Signature.baseOf, Signature.baseOf, hb]
    | applied decl args => rw [Signature.baseOf, Signature.baseOf, hb]
    | param owner index =>
      rw [Signature.baseOf, Signature.baseOf, hbd, ← List.head?_filter, ← List.head?_filter]
      refine congrArg List.head? (List.filter_congr fun t ht => ?_)
      rw [Signature.isBaseKind, Signature.isBaseKind, hkind t ht]
  · cases t with
    | plain decl => rw [Signature.declaredBy, Signature.declaredBy, hi]
    | applied decl args => rw [Signature.declaredBy, Signature.declaredBy, hi]
    | param owner index =>
      rw [Signature.declaredBy, Signature.declaredBy, hbd]
      refine List.filter_congr fun t ht => ?_
      rw [Signature.isInterface, Signature.isInterface, hkind t ht]

theorem Consistent.enrolled (hu : u.Consistent) : (u.enrolled d).Consistent := by
  have hk : (u.enrolled d).kind? = u.kind? := hu.kind?_enrolled
  have hp : (u.enrolled d).parents = u.parents := by
    funext decl
    unfold parents
    rcases u.get?_enrolled_or d decl with h | ⟨h, h'⟩
    · rw [h]; rfl
    · simp [h, h', hbase, hints]
  obtain ⟨hsb, hsd⟩ := hu.signature_enrolled hbase hints hbounds
  refine ⟨hu.table, fun {ty shape} hs => ?_, fun {x d' ty} hd' hb => ?_,
    fun {x d'} hd' ty hi => ?_, fun {x d'} hd' p hp ty hb => ?_, fun x h => ?_,
    fun {ty closure} h => ?_⟩
  · have hf := hu.fits hs
    cases shape with
    | plain x => exact hf.imp fun _ h => ⟨get?_enrolled h.1, h.2⟩
    | applied x args => exact ⟨hf.1.imp fun _ h => ⟨get?_enrolled h.1, h.2⟩, hf.2⟩
    | param x index => exact hf.imp fun _ h => ⟨get?_enrolled h.1, h.2⟩
  · rw [isBaseKind, hk]
    rcases u.get?_enrolled_or d x with h | ⟨h, -⟩
    · exact hu.base (h ▸ hd') hb
    · cases h.symm.trans hd'
      rw [hbase] at hb
      cases hb
  · rw [isInterface, hk]
    rcases u.get?_enrolled_or d x with h | ⟨h, -⟩
    · exact hu.interfaces (h ▸ hd') ty hi
    · cases h.symm.trans hd'
      rw [hints] at hi
      cases hi
  · rcases u.get?_enrolled_or d x with h | ⟨h, -⟩
    · exact hu.bounds (h ▸ hd') p hp ty hb
    · cases h.symm.trans hd'
      rw [hbounds p hp] at hb
      cases hb
  · refine hu.acyclic x (TransGen.mono (fun x y hxy => ?_) _ _ h)
    rwa [Inherits, hp] at hxy
  · obtain ⟨hty, hmem, hmap⟩ := hu.closures h
    refine ⟨hty, hmem, hmap.trans ?_⟩
    exact (Signature.closureOf_of_size_succ hu.exists_ranking hsb hsd
      (u.catalog.size_add d) _).symm

end Universe

/-! ## Declaring a name -/

namespace Declaration

variable (d : Declaration)

theorem arity_stripped : d.stripped.arity = d.arity := by
  simp [arity, stripped, bare]

theorem constraints_of_mem_stripped {p : Parameter} (hp : p ∈ d.stripped.parameters) :
    p.constraints = [] := by
  obtain ⟨n, -, rfl⟩ := List.mem_map.1 hp
  rfl

end Declaration

/-- The own type of a new declaration. -/
def UniverseM.ownTypeFor (decl : DeclId) (arity : Nat) : UniverseM Handle :=
  if arity = 0 then intern (.plain decl)
  else do
    let args ← (List.range arity).mapM fun index => intern (.param decl index)
    intern (.applied decl args)

theorem Declaring.mapM_liftM {α β : Type} (f : α → UniverseM β) (l : List α) :
    (l.mapM fun a => (liftM (f a) : Declaring β)) = (liftM (l.mapM f) : Declaring (List β)) := by
  induction l with
  | nil => rfl
  | cons a l ih =>
    rw [List.mapM_cons, List.mapM_cons, ih]
    rfl

theorem Declaring.run_declare (d : Declaration) (u : Universe) (j : Journal) :
    (declare d).run ⟨u, j⟩ =
      match u.checkName d.stripped.name with
      | .error e => (.error e, ⟨u, j⟩)
      | .ok _ =>
        let (ty, c) := ownTypeFor (u.catalog.add d.stripped).1 d.arity
          ⟨u.enrolled d.stripped,
            j.note (.registered (u.catalog.add d.stripped).1 d.stripped.kind d.stripped.name)⟩
        (.ok ty, ⟨c.univ.addOwnType ty, c.journal.note (.declared d.name d.arity ty)⟩) := by
  unfold declare register
  rw [bind_assoc, Declaring.run_require_bind]
  cases u.checkName d.stripped.name with
  | error e => rfl
  | ok _ =>
    dsimp only
    unfold ownTypeFor
    split_ifs
    · rfl
    · simp only [Declaring.mapM_liftM]
      rfl

namespace UniverseM

variable {u : Universe} {decl : DeclId} {d : Declaration}

theorem mapM_param_ensures (hu : u.Consistent) (hd : u.catalog.get? decl = some d)
    {l : List Nat} (hl : ∀ i ∈ l, i < d.arity) :
    Ensures u (l.mapM fun index => intern (.param decl index)) fun rs v =>
      u.GainsAll v rs (l.map (.param decl ·)) := by
  induction l generalizing u with
  | nil => exact .pure hu (.nil u)
  | cons i l ih =>
    rw [List.mapM_cons]
    refine Ensures.bind (intern_gains hu ⟨d, hd, hl i List.mem_cons_self⟩) fun ty v hv hty => ?_
    refine Ensures.bind (ih hv.after (by rw [hv.catalog, hd]) fun i hi =>
      hl i (List.mem_cons_of_mem _ hi)) fun rs w hw hrs => ?_
    exact .pure hw.after ((hty.2 _ (hv.after.reads_param hty.1)).cons hw hrs)

theorem ownTypeFor_ensures (hu : u.Consistent) (hd : u.catalog.get? decl = some d) :
    Ensures u (ownTypeFor decl d.arity) fun ty v => u.Gains v ty (.own decl d.arity) := by
  unfold ownTypeFor Ty.own
  split_ifs with h
  · have hfits : u.Fits (.plain decl) := ⟨d, hd, h⟩
    exact (intern_gains hu hfits).imp fun ty v hv hty => hty.2 _ (hv.after.reads_plain hty.1)
  · refine Ensures.bind (mapM_param_ensures hu hd fun i hi => List.mem_range.1 hi)
      fun args v hv hargs => ?_
    have hlen : args.length = d.arity := by
      rw [hargs.reads.length_eq, List.length_map, List.length_range]
    have hfits : v.Fits (.applied decl args) := by
      refine ⟨⟨d, by rw [hv.catalog, hd], hlen.symm⟩, ?_, (Universe.forall₂_reads_iff.1 hargs.reads).1⟩
      rintro rfl
      exact h hlen.symm
    exact (intern_gains hv.after hfits).imp fun ty w hw hty =>
      hargs.applied (hty.2 _ (hw.after.reads_applied hty.1 (hw.forall₂_reads hargs.reads)))

end UniverseM

/-! ## The own type of a declaration -/

namespace Universe

variable {u v : Universe}

theorem ownType?_addOwnType_of_eq_some {decl : DeclId} {own : Handle} (h : u.ownType? decl = some own)
    (ty : Handle) : (u.addOwnType ty).ownType? decl = some own := by
  unfold ownType? at h ⊢
  split at h
  · cases h
  · obtain ⟨hlt, -⟩ := Array.getElem?_eq_some_iff.1 h
    rw [addOwnType, Array.getElem?_push, if_neg (Nat.ne_of_lt hlt), h]

theorem ownType?_addOwnType_self (u : Universe) (ty : Handle) :
    (u.addOwnType ty).ownType? ⟨u.ownTypes.size + 1⟩ = some ty :=
  Array.getElem?_push_size

/-- The own type of a new declaration completes the universe. -/
theorem Valid.addOwnType {d : Declaration} {ty : Handle} (hu : u.Valid)
    (hv : (u.enrolled d).Grows v) (hr : v.Reads ty (.own (u.catalog.add d).1 d.arity)) :
    (v.addOwnType ty).Valid := by
  have hc := hv.after
  have hsize : v.ownTypes.size = u.catalog.size := by rw [hv.ownTypes, ← hu.aligned, enrolled]
  refine ⟨⟨hc.table, hc.fits, hc.base, hc.interfaces, hc.bounds, hc.acyclic, hc.closures⟩,
    fun {decl d'} hd => ?_, ?_⟩
  · have hd : (u.catalog.add d).2.get? decl = some d' := by
      rw [← hd]
      exact congrArg (Catalog.get? · decl) hv.catalog.symm
    rw [Catalog.get?_add] at hd
    split_ifs at hd with he
    · obtain rfl := Option.some.inj hd
      refine ⟨ty, ?_, he ▸ hr⟩
      rw [he, show (u.catalog.add d).1 = ⟨v.ownTypes.size + 1⟩ by rw [hsize]; rfl]
      exact v.ownType?_addOwnType_self ty
    · obtain ⟨ty', hty', hr'⟩ := hu.owned hd
      refine ⟨ty', ownType?_addOwnType_of_eq_some ?_ ty, hv.reads (u := u.enrolled d) hr'⟩
      rwa [hv.ownType?]
  · show (v.ownTypes.push ty).size = v.catalog.size
    rw [Array.size_push, hsize, hv.catalog]
    exact (u.catalog.size_add d).symm

/-- The second universe is the first one with a declaration and its own type. -/
structure Introduces (u : Universe) (d : Declaration) (ty : Handle) (v : Universe) : Prop where
  valid : v.Valid
  table : u.table.Extends v.table
  catalog : v.catalog = (u.catalog.add d).2
  ownTypes : v.ownTypes = u.ownTypes.push ty
  gains : u.Gains v ty (.own (u.catalog.add d).1 d.arity)

/-- What comes of a declaration whose name is free. -/
theorem Valid.run_declare (hu : u.Valid) (d : Declaration) (j : Journal)
    (hname : u.checkName d.name = .ok ()) :
    ∃ ty, ((Declaring.declare d).run ⟨u, j⟩).1 = .ok ty ∧
      u.Introduces d.stripped ty ((Declaring.declare d).run ⟨u, j⟩).2.univ := by
  rw [Declaring.run_declare, show d.stripped.name = d.name from rfl, hname]
  have hv : (u.enrolled d.stripped).Consistent :=
    hu.consistent.enrolled rfl rfl fun _ => d.constraints_of_mem_stripped
  have hget : (u.enrolled d.stripped).catalog.get? (u.catalog.add d.stripped).1 =
      some d.stripped := by
    rw [enrolled, Catalog.get?_add, if_pos rfl]
  have hown := ownTypeFor_ensures hv hget
  rw [d.arity_stripped] at hown
  obtain ⟨hw, hg⟩ :=
    hown (j.note (.registered (u.catalog.add d.stripped).1 d.stripped.kind d.stripped.name))
  refine ⟨_, rfl, hu.addOwnType hw (d.arity_stripped ▸ hg.reads), hw.table, hw.catalog,
    congrArg (Array.push · _) hw.ownTypes, ?_⟩
  rw [d.arity_stripped]
  exact ⟨hg.reads, hg.parts, hg.closures⟩

theorem Valid.declare (hu : u.Valid) (d : Declaration) (j : Journal) :
    let r := (Declaring.declare d).run ⟨u, j⟩
    r.2.univ.Valid ∧ u.table.Extends r.2.univ.table ∧ ∀ ty, r.1 = .ok ty → r.2.univ.contains ty := by
  cases hname : u.checkName d.name with
  | ok _ =>
    obtain ⟨ty, hty, h⟩ := hu.run_declare d j hname
    refine ⟨h.valid, h.table, fun ty' hty' => ?_⟩
    cases hty.symm.trans hty'
    exact h.gains.reads.1
  | error e =>
    dsimp only
    rw [Declaring.run_declare, show d.stripped.name = d.name from rfl, hname]
    exact ⟨hu, .refl _, fun ty h => by cases h⟩

end Universe

end Subtyping
