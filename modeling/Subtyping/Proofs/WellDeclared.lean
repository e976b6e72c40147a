import Subtyping.Proofs.Occurrences

/-!
# Declarations stay well-formed

However a universe is used, interfaces have no base and the supertypes and bounds of a declaration
mention only its own parameters (`Universe.WellDeclared`, kept by every step:
`Universe.Evolves.wellDeclared`). The interfaces that a declaration lists and the bounds of its parameters
are those that steps have added, in the order in which they came first (`Step.listed_run`,
`Step.boundsOf_run`). A supertype that passes all other checks is refused exactly if it would close a
circle (`Universe.Grounded.exists_transGen_revised_iff`).
-/

namespace Subtyping

open Relation UniverseM

/-- All types that a declaration is given: its base, its interfaces and the bounds of its parameters. -/
def Declaration.mentioned (d : Declaration) : List Handle :=
  d.base.toList ++ d.interfaces ++ d.parameters.flatMap (·.constraints)

theorem Declaration.mem_mentioned {d : Declaration} {ty : Handle} :
    ty ∈ d.mentioned ↔
      d.base = some ty ∨ ty ∈ d.interfaces ∨ ∃ p ∈ d.parameters, ty ∈ p.constraints := by
  simp [mentioned]

theorem Declaration.Bare.mentioned {d : Declaration} (h : d.Bare) : d.mentioned = [] := by
  rw [Declaration.mentioned, h.base, h.interfaces, List.flatMap_eq_nil_iff.2 h.bounds]
  rfl

namespace Universe

variable {u v : Universe} {A : Handle → Prop} {decl : DeclId} {d : Declaration}
  {f : Declaration → Declaration} {ty : Handle}

/-! ## Bases and scopes -/

/-- Interfaces have no base, and declarations mention no parameters but their own. -/
structure WellDeclared (u : Universe) : Prop where
  no_base : ∀ {decl d}, u.catalog.get? decl = some d → d.isInterface → d.base = none
  scope : ∀ {decl d}, u.catalog.get? decl = some d →
    ∀ ty ∈ d.mentioned, u.anyOwner (· != decl) ty = false

/-- Owners of parameters are a matter of the types alone. -/
theorem anyOwner_of_table_eq (h : v.table = u.table) (p : DeclId → Bool) :
    v.anyOwner p = u.anyOwner p := by
  have hwithin : ∀ levels, v.anyOwnerWithin p levels = u.anyOwnerWithin p levels := by
    intro levels
    induction levels with
    | zero => rfl
    | succ n ih =>
      funext ty
      rw [anyOwnerWithin, anyOwnerWithin, ih, shape?, shape?, h]
  funext ty
  rw [anyOwner, anyOwner, hwithin, typeCount, typeCount, h]

theorem Consistent.contains_of_mem_mentioned (hu : u.Consistent)
    (hd : u.catalog.get? decl = some d) (hty : ty ∈ d.mentioned) : u.contains ty := by
  rcases Declaration.mem_mentioned.1 hty with hb | hi | ⟨p, hp, hb⟩
  · exact contains_of_isBaseKind (hu.base hd hb)
  · exact contains_of_isInterface (hu.interfaces hd ty hi)
  · exact hu.bounds hd p hp ty hb

namespace WellDeclared

theorem grow (hw : u.WellDeclared) (h : u.Grows v) : v.WellDeclared := by
  refine ⟨fun {decl d} hd => hw.no_base (h.catalog ▸ hd), fun {decl d} hd ty hty => ?_⟩
  rw [h.catalog] at hd
  have hr := reads_typeAt (h.before.contains_of_mem_mentioned hd hty)
  rw [h.after.anyOwner_of_reads _ (h.reads hr), ← h.before.anyOwner_of_reads _ hr]
  exact hw.scope hd ty hty

/-- The closures on record do not matter. -/
theorem dropClosures_iff : u.dropClosures.WellDeclared ↔ u.WellDeclared := by
  have howner := anyOwner_of_table_eq (u := u) (v := u.dropClosures) rfl
  constructor
  · exact fun h => ⟨h.no_base, fun hd ty hty => howner _ ▸ h.scope hd ty hty⟩
  · exact fun h => ⟨h.no_base, fun hd ty hty => (howner _).symm ▸ h.scope hd ty hty⟩

theorem expand (hw : u.WellDeclared) (h : u.Expands A v) : v.WellDeclared :=
  dropClosures_iff.1 ((dropClosures_iff.2 hw).grow h.grows)

theorem enrolled (hw : u.WellDeclared) (hd : d.Bare) : (u.enrolled d).WellDeclared := by
  refine ⟨fun {x d'} hd' hint => ?_, fun {x d'} hd' ty hty => ?_⟩
  · rcases u.get?_enrolled_or d x with h | ⟨h, -⟩
    · exact hw.no_base (h ▸ hd') hint
    · cases h.symm.trans hd'
      exact hd.base
  · rw [anyOwner_of_table_eq (u := u) (v := u.enrolled d) rfl]
    rcases u.get?_enrolled_or d x with h | ⟨h, -⟩
    · exact hw.scope (h ▸ hd') ty hty
    · cases h.symm.trans hd'
      rw [hd.mentioned] at hty
      cases hty

theorem addOwnType (hw : u.WellDeclared) (own : Handle) : (u.addOwnType own).WellDeclared := by
  refine ⟨hw.no_base, fun {x d} hd ty hty => ?_⟩
  rw [anyOwner_of_table_eq (u := u) (v := u.addOwnType own) rfl]
  exact hw.scope hd ty hty

/-- A change to a declaration that gives no interface a base and adds only types with the parameters
of the declaration. -/
theorem revise (hw : u.WellDeclared) (hbase : ∀ d, u.catalog.get? decl = some d →
      (f d).isInterface → (f d).base = none)
    (hscope : ∀ d, ∀ ty ∈ (f d).mentioned, ty ∈ d.mentioned ∨ u.anyOwner (· != decl) ty = false) :
    (u.revised decl f).WellDeclared := by
  refine ⟨fun {x d'} hd' hint => ?_, fun {x d'} hd' ty hty => ?_⟩
  · obtain ⟨d₀, hd₀, rfl | ⟨rfl, rfl⟩⟩ := of_get?_revised hd'
    · exact hw.no_base hd₀ hint
    · exact hbase d₀ hd₀ hint
  · rw [anyOwner_of_table_eq (u := u) (v := u.revised decl f) rfl]
    obtain ⟨d₀, hd₀, rfl | ⟨rfl, rfl⟩⟩ := of_get?_revised hd'
    · exact hw.scope hd₀ ty hty
    · exact (hscope d₀ ty hty).elim (hw.scope hd₀ ty) id

end WellDeclared

/-- Every step keeps declarations well-formed. -/
theorem Evolves.wellDeclared (h : u.Evolves A v) (hw : u.WellDeclared) : v.WellDeclared := by
  cases h with
  | expand h => exact hw.expand h
  | declare hd hv hg => exact ((hw.enrolled hd).expand hv).addOwnType _
  | @setBase decl d base hd hclass hkind hscope hany =>
    refine hw.revise (f := fun d => { d with base := some base }) (fun d' hd' hint => ?_)
      fun d' ty hty => ?_
    · cases hd.symm.trans hd'
      exact absurd (hclass.symm.trans hint) Bool.false_ne_true
    · rcases Declaration.mem_mentioned.1 hty with hb | hrest
      · cases hb
        exact Or.inr hscope
      · exact Or.inl (Declaration.mem_mentioned.2 (Or.inr hrest))
  | @addInterface decl d interface hd hkind hscope hany =>
    refine hw.revise (f := (·.withInterface interface)) (fun d' hd' hint => ?_) fun d' ty hty => ?_
    · obtain ⟨hk, hb, -⟩ := frame_withInterface d' interface
      rw [Declaration.isInterface, hk] at hint
      exact hb.trans (hw.no_base hd' hint)
    · obtain ⟨-, hb, hp⟩ := frame_withInterface d' interface
      rw [Declaration.mem_mentioned, hb, hp] at hty
      rcases hty with hbase | hi | hbound
      · exact Or.inl (Declaration.mem_mentioned.2 (Or.inl hbase))
      · rcases mem_interfaces_withInterface hi with hi | rfl
        · exact Or.inl (Declaration.mem_mentioned.2 (Or.inr (Or.inl hi)))
        · exact Or.inr hscope
      · exact Or.inl (Declaration.mem_mentioned.2 (Or.inr (Or.inr hbound)))
  | @addConstraint owner index bound hbound hscope =>
    refine hw.revise (f := (·.withConstraint index bound)) (fun d' hd' hint => ?_) fun d' ty hty => ?_
    · show d'.base = none
      exact hw.no_base hd' hint
    · rcases Declaration.mem_mentioned.1 hty with hbase | hi | ⟨p, hp, hb⟩
      · exact Or.inl (Declaration.mem_mentioned.2 (Or.inl hbase))
      · exact Or.inl (Declaration.mem_mentioned.2 (Or.inr (Or.inl hi)))
      · rcases mem_constraints_withConstraint hp hb with hold | rfl
        · exact Or.inl (Declaration.mem_mentioned.2 (Or.inr (Or.inr hold)))
        · exact Or.inr hscope

/-! ## Circles -/

/-- One more supertype closes a circle exactly if the declaration is found on the way up from it. -/
theorem Grounded.exists_transGen_revised_iff (hu : u.Grounded) {k : Kind} (hk : u.kind? ty = some k)
    (hd : u.catalog.get? decl = some d) (hnew : (f d).base = some ty ∨ ty ∈ (f d).interfaces)
    (hsuper : ∀ d s, (f d).base = some s ∨ s ∈ (f d).interfaces →
      (d.base = some s ∨ s ∈ d.interfaces) ∨ s = ty) :
    (∃ x, TransGen (u.revised decl f).Inherits x x) ↔
      (u.head? ty).any (u.inheritsFrom · decl) = true := by
  constructor
  · rintro ⟨x, hx⟩
    by_contra hany
    rw [Bool.not_eq_true, ← inheritsFrom_dropClosures] at hany
    exact hu.consistent.not_transGen_revised hk hany hsuper x hx
  · intro hany
    obtain ⟨parent, hparent, -⟩ := Option.bind_eq_some_iff.1 hk
    rw [hparent, Option.any_some] at hany
    have hedges : ∀ x y, u.Inherits x y → x ≠ decl → (u.revised decl f).Inherits x y := by
      intro x y hxy hne
      obtain ⟨d', hd', hs⟩ := inherits_iff.1 hxy
      exact inherits_iff.2 ⟨d', by rw [get?_revised, if_neg (Ne.symm hne), hd'], hs⟩
    have hpath : ReflTransGen (u.revised decl f).Inherits parent decl :=
      reflTransGen_of_edges hedges (reaches_of_inheritsFrom hany)
    have hedge : (u.revised decl f).Inherits decl parent :=
      inherits_iff.2 ⟨f d, by rw [get?_revised, if_pos rfl, hd]; rfl, ty, hnew, hparent⟩
    exact ⟨decl, .head' hedge hpath⟩

/-- An outcome is the given error if a hierarchy has a circle, and success if it has none. -/
def RefusesCircle (outcome : Except Error Unit) (v : Universe) (e : Error) : Prop :=
  (outcome = .error e ↔ ∃ x, TransGen v.Inherits x x) ∧
    (outcome = .ok () ↔ ∀ x, ¬ TransGen v.Inherits x x)

theorem RefusesCircle.of_iff {outcome : Except Error Unit} {e : Error} {b : Bool}
    (houtcome : outcome = if b then .error e else .ok ())
    (hb : (∃ x, TransGen v.Inherits x x) ↔ b = true) : RefusesCircle outcome v e := by
  rw [RefusesCircle, ← not_exists, hb, houtcome]
  cases b <;> simp

theorem Grounded.anyOwner_ne_eq_false_iff (hu : u.Grounded) :
    u.anyOwner (· != decl) ty = false ↔ ∀ owner index, u.Mentions ty owner index → owner = decl := by
  rw [← Bool.not_eq_true, hu.anyOwner_iff]
  simp

section Check

variable {declared : Handle} (hu : u.Grounded) (hown : u.ownType? decl = some declared)
  (hd : u.catalog.get? decl = some d)
include hu hown hd

theorem Grounded.declarationOf_eq : u.declarationOf declared = .ok (decl, d) := by
  obtain ⟨d', hd', hr⟩ := Valid.reads_of_ownType? hu hown
  cases hd.symm.trans hd'
  have hhead : u.head? declared = some decl :=
    (hu.consistent.head?_of_reads hr).trans (Ty.head?_own decl d.arity)
  obtain ⟨shape, hs, hh⟩ := Option.bind_eq_some_iff.1 hhead
  simp only [declarationOf, hs, hh, hd]
  rfl

theorem Grounded.ownDeclarationOf_eq : u.ownDeclarationOf declared = .ok (decl, d) := by
  simp only [ownDeclarationOf, hu.declarationOf_eq hown hd, hown, bind, Except.bind, beq_self_eq_true]
  rfl

/-- A base that is of the right kind and in scope is refused only for a circle. -/
theorem Grounded.checkBase_eq {base : Handle} (hclass : d.isInterface = false)
    (hkind : u.isBaseKind base) (hscope : u.anyOwner (· != decl) base = false) :
    u.checkBase declared base =
      if (u.head? base).any (u.inheritsFrom · decl) then
        .error (.cyclicInheritance d.name (u.display base))
      else .ok decl := by
  rw [checkBase, hu.ownDeclarationOf_eq hown hd]
  simp only [bind, Except.bind, hclass, contains_of_isBaseKind hkind, hkind,
    checkScope, hscope, Bool.false_eq_true, ↓reduceIte]
  split_ifs <;> rfl

/-- So is an interface. -/
theorem Grounded.checkInterface_eq {interface : Handle} (hkind : u.isInterface interface)
    (hscope : u.anyOwner (· != decl) interface = false) :
    u.checkInterface declared interface =
      if (u.head? interface).any (u.inheritsFrom · decl) then
        .error (.cyclicInheritance d.name (u.display interface))
      else .ok (decl, d) := by
  rw [checkInterface, hu.ownDeclarationOf_eq hown hd]
  simp only [bind, Except.bind, contains_of_isInterface hkind, hkind,
    checkScope, hscope, Bool.false_eq_true, ↓reduceIte]
  split_ifs <;> rfl

theorem Grounded.refusesCircle_setBase {base : Handle} (hclass : d.isInterface = false)
    (hkind : u.isBaseKind base) (hscope : u.anyOwner (· != decl) base = false) (j : Journal) :
    RefusesCircle ((Declaring.setBase declared base).run ⟨u, j⟩).1 (u.withBase decl base)
      (.cyclicInheritance d.name (u.display base)) := by
  obtain ⟨k, hk⟩ := exists_kind?_of_isBaseKind hkind
  refine .of_iff (b := (u.head? base).any (u.inheritsFrom · decl)) ?_ ?_
  · rw [Declaring.run_setBase]
    dsimp only
    rw [hu.checkBase_eq hown hd hclass hkind hscope]
    split_ifs <;> rfl
  · refine hu.exists_transGen_revised_iff (f := fun d => { d with base := some base }) hk hd
      (Or.inl rfl) ?_
    rintro d' s (hs | hs)
    · exact Or.inr (Option.some.inj hs).symm
    · exact Or.inl (Or.inr hs)

theorem Grounded.refusesCircle_addInterface {interface : Handle} (hkind : u.isInterface interface)
    (hscope : u.anyOwner (· != decl) interface = false) (j : Journal) :
    RefusesCircle ((Declaring.addInterface declared interface).run ⟨u, j⟩).1
      (u.withInterface decl interface) (.cyclicInheritance d.name (u.display interface)) := by
  refine .of_iff (b := (u.head? interface).any (u.inheritsFrom · decl)) ?_ ?_
  · rw [Declaring.run_addInterface]
    dsimp only
    rw [hu.checkInterface_eq hown hd hkind hscope]
    split_ifs <;> rfl
  · refine hu.exists_transGen_revised_iff (f := (·.withInterface interface)) (k := .interfaceKind)
      (by simpa [isInterface] using hkind) hd (Or.inr ?_) ?_
    · unfold Declaration.withInterface
      split_ifs with hmem
      · exact hmem
      · simp
    · rintro d' s (hs | hs)
      · rw [(frame_withInterface d' interface).2.1] at hs
        exact Or.inl (Or.inl hs)
      · exact (mem_interfaces_withInterface hs).imp_left Or.inr

end Check

/-! ## Lists in the order of insertion -/

/-- The interfaces that a declaration lists. -/
def listed (u : Universe) (decl : DeclId) : List Handle :=
  ((u.catalog.get? decl).map (·.interfaces)).getD []

/-- The bounds of a parameter, by its owner and position. -/
def boundsOf (u : Universe) (owner : DeclId) (index : Nat) : List Handle :=
  ((u.parameter? owner index).map (·.constraints)).getD []

theorem listed_of_get?_eq (h : v.catalog.get? decl = u.catalog.get? decl) :
    v.listed decl = u.listed decl := by
  rw [listed, listed, h]

theorem boundsOf_of_get?_eq {index : Nat} (h : v.catalog.get? decl = u.catalog.get? decl) :
    v.boundsOf decl index = u.boundsOf decl index := by
  rw [boundsOf, boundsOf, parameter?, parameter?, h]

/-- A change that is not about interfaces leaves the lists of interfaces alone. -/
theorem listed_revised (hf : ∀ d, (f d).interfaces = d.interfaces) (decl x : DeclId) :
    (u.revised decl f).listed x = u.listed x := by
  rw [listed, listed, get?_revised]
  split_ifs
  · rw [Option.map_map]
    exact congrArg (fun g => ((u.catalog.get? x).map g).getD []) (funext hf)
  · rfl

/-- A change that is not about parameters leaves their bounds alone. -/
theorem boundsOf_revised (hf : ∀ d, (f d).parameters = d.parameters) (decl x : DeclId) (index : Nat) :
    (u.revised decl f).boundsOf x index = u.boundsOf x index := by
  have hparam : (u.revised decl f).parameter? x index = u.parameter? x index := by
    rw [parameter?, parameter?, get?_revised]
    split_ifs
    · cases u.catalog.get? x with
      | none => rfl
      | some d => rw [Option.map_some, Option.bind_some, Option.bind_some, hf]
    · rfl
  rw [boundsOf, boundsOf, hparam]

end Universe

/-- Appends what is not there yet. -/
def appendNew (l new : List Handle) : List Handle :=
  new.foldl (fun l ty => if ty ∈ l then l else l ++ [ty]) l

theorem eraseDups_append_eq_appendNew (l new : List Handle) :
    (l ++ new).eraseDups = appendNew l.eraseDups new := by
  induction new generalizing l with
  | nil => simp [appendNew]
  | cons ty new ih =>
    have hone : (l ++ [ty]).eraseDups =
        if ty ∈ l.eraseDups then l.eraseDups else l.eraseDups ++ [ty] := by
      rw [List.eraseDups_append]
      by_cases h : ty ∈ l
      · rw [if_pos (List.mem_eraseDups.2 h)]
        simp [List.removeAll, h]
      · rw [if_neg (h ∘ List.mem_eraseDups.1)]
        simp [List.removeAll, List.eraseDups_cons, h]
    rw [← List.singleton_append, ← List.append_assoc, ih, hone]
    rfl

theorem nodup_eraseDups (l : List Handle) : l.eraseDups.Nodup := by
  induction l using List.reverseRecOn with
  | nil => simp
  | append_singleton l ty ih =>
    rw [eraseDups_append_eq_appendNew]
    simp only [appendNew, List.foldl_cons, List.foldl_nil]
    split_ifs with h
    · exact ih
    · exact ih.append (List.nodup_singleton ty) (by simpa using h)

/-- The bounds of a parameter once a bound is appended, if it is new. -/
theorem constraints_withConstraint (d : Declaration) (bound : Handle) {i : Nat} (hi : i < d.arity)
    (index : Nat) :
    (((d.withConstraint i bound).parameters[index]?).map (·.constraints)).getD [] =
      appendNew (((d.parameters[index]?).map (·.constraints)).getD [])
        (if i = index then [bound] else []) := by
  rw [Declaration.withConstraint, List.getElem?_modify]
  by_cases hindex : i = index
  · subst hindex
    rw [if_pos rfl, List.getElem?_eq_getElem hi]
    simp only [Option.map_eq_map, Option.map_some, Option.getD_some, ↓reduceIte, appendNew,
      List.foldl_cons, List.foldl_nil]
    split_ifs <;> rfl
  · simp [hindex, appendNew]

namespace Step

open Universe

/-- The interface that a step lists for a declaration, if it is accepted. -/
def lists (decl : DeclId) (c : Chronicle) : Step → List Handle
  | operation (.addInterface declared interface) =>
    if ((Declaring.addInterface declared interface).run c).1.isOk ∧ c.univ.head? declared = some decl
    then [interface] else []
  | _ => []

/-- The bound that a step gives a parameter, if it is accepted. -/
def bounds (owner : DeclId) (index : Nat) (c : Chronicle) : Step → List Handle
  | operation (.addConstraint param bound) =>
    if ((Declaring.addConstraint param bound).run c).1.isOk ∧
      c.univ.shape? param = some (.param owner index)
    then [bound] else []
  | _ => []

variable {c : Chronicle} {s : Step}

/-- Steps that change no declaration leave the catalog alone. -/
theorem catalog_run (hc : c.univ.Grounded) (hs : s.declares = false) (h : s.allowed c.univ) :
    (s.run c).2.univ.catalog = c.univ.catalog :=
  (expands_run (A := fun _ => True) hc hs h (fun _ _ _ => trivial) c.journal).grows.catalog

theorem get?_declare (hc : c.univ.Grounded) (d : Declaration) (decl : DeclId) :
    let v := ((Declaring.declare d).run c).2.univ
    v.catalog.get? decl = c.univ.catalog.get? decl ∨
      c.univ.catalog.get? decl = none ∧ v.catalog.get? decl = some d.stripped := by
  dsimp only
  rcases hc.declare_cases (A := fun _ => True) d c.journal with h | ⟨v, ty, h, hv, -⟩
  · exact Or.inl (congrArg (·.catalog.get? decl) h)
  · have hcat : ((Declaring.declare d).run c).2.univ.catalog = (c.univ.enrolled d.stripped).catalog :=
      (congrArg Universe.catalog h).trans hv.grows.catalog
    rw [hcat]
    exact (c.univ.get?_enrolled_or d.stripped decl).imp_right And.symm

theorem lists_of_declares_eq_false (decl : DeclId) (hs : s.declares = false) : s.lists decl c = [] := by
  cases s with
  | operation op =>
    cases op with
    | addInterface declared interface => cases hs
    | _ => rfl
  | _ => rfl

theorem bounds_of_declares_eq_false (owner : DeclId) (index : Nat) (hs : s.declares = false) :
    s.bounds owner index c = [] := by
  cases s with
  | operation op =>
    cases op with
    | addConstraint param bound => cases hs
    | _ => rfl
  | _ => rfl

theorem listed_run_addInterface (declared interface : Handle) (decl : DeclId) :
    ((Declaring.addInterface declared interface).run c).2.univ.listed decl =
      appendNew (c.univ.listed decl) (lists decl c (.operation (.addInterface declared interface))) := by
  have hrun := Declaring.run_addInterface declared interface c
  rw [lists]
  cases hcheck : c.univ.checkInterface declared interface with
  | error e =>
    rw [hcheck] at hrun
    rw [hrun]
    rfl
  | ok p =>
    obtain ⟨decl', d⟩ := p
    obtain ⟨hhead, hd, -⟩ := ownDeclarationOf_eq_ok (checkInterface_eq_ok hcheck).1
    rw [hcheck] at hrun
    by_cases hdecl : decl' = decl
    · subst hdecl
      have hbefore : c.univ.listed decl' = d.interfaces := by rw [listed, hd]; rfl
      rw [if_pos ⟨by rw [hrun]; rfl, hhead⟩, hrun]
      by_cases hmem : interface ∈ d.interfaces
      · simp [appendNew, hbefore, hmem]
      · simp only [hmem, if_false, hbefore, appendNew, List.foldl_cons, List.foldl_nil]
        show (c.univ.revised decl' (·.withInterface interface)).listed decl' = _
        rw [listed, get?_revised, if_pos rfl, hd]
        simp [Declaration.withInterface, hmem]
    · rw [if_neg fun h => hdecl (Option.some.inj (hhead.symm.trans h.2)), hrun]
      dsimp only
      split_ifs
      · rfl
      · exact listed_of_get?_eq ((get?_revised _ _ _ _).trans (if_neg hdecl))

/-- A step adds to the interfaces that a declaration lists what it is accepted for. -/
theorem listed_run (hc : c.univ.Grounded) (h : s.allowed c.univ) (decl : DeclId) :
    (s.run c).2.univ.listed decl = appendNew (c.univ.listed decl) (s.lists decl c) := by
  cases hs : s.declares with
  | false =>
    rw [lists_of_declares_eq_false decl hs]
    exact listed_of_get?_eq (by rw [catalog_run hc hs h])
  | true =>
    cases s with
    | makeGeneric definition args => cases hs
    | query verdicts limits source target => cases hs
    | operation op =>
      cases op with
      | declare d =>
        rcases get?_declare hc d decl with hsame | ⟨hnone, hnew⟩
        · exact listed_of_get?_eq hsame
        · show ((Declaring.declare d).run c).2.univ.listed decl = c.univ.listed decl
          rw [listed, listed, hnone, hnew]
          rfl
      | setBase declared base =>
        show ((Declaring.setBase declared base).run c).2.univ.listed decl = c.univ.listed decl
        rw [Declaring.run_setBase]
        split
        · exact listed_revised (f := fun d => { d with base := some base }) (fun _ => rfl) _ _
        · rfl
      | addInterface declared interface => exact listed_run_addInterface declared interface decl
      | addConstraint param bound =>
        show ((Declaring.addConstraint param bound).run c).2.univ.listed decl = c.univ.listed decl
        rw [Declaring.run_addConstraint]
        split
        · exact listed_revised (f := (·.withConstraint _ bound)) (fun _ => rfl) _ _
        · rfl
      | _ => cases hs

theorem boundsOf_run_addConstraint (hc : c.univ.Grounded) (param bound : Handle) (owner : DeclId)
    (index : Nat) :
    ((Declaring.addConstraint param bound).run c).2.univ.boundsOf owner index =
      appendNew (c.univ.boundsOf owner index)
        (bounds owner index c (.operation (.addConstraint param bound))) := by
  have hrun := Declaring.run_addConstraint param bound c
  rw [bounds]
  cases hcheck : c.univ.checkConstraint param bound with
  | error e =>
    rw [hcheck] at hrun
    rw [hrun]
    rfl
  | ok p =>
    obtain ⟨owner', index'⟩ := p
    obtain ⟨hs, -, -⟩ := checkConstraint_eq_ok hcheck
    obtain ⟨d, hd, hlt⟩ : c.univ.Fits (.param owner' index') := hc.consistent.fits hs
    rw [hcheck] at hrun
    rw [hrun]
    show (c.univ.revised owner' (·.withConstraint index' bound)).boundsOf owner index = _
    by_cases hown : owner' = owner
    · subst hown
      have hafter : (c.univ.revised owner' (·.withConstraint index' bound)).boundsOf owner' index =
          (((d.withConstraint index' bound).parameters[index]?).map (·.constraints)).getD [] := by
        rw [boundsOf, parameter?, get?_revised, if_pos rfl, hd]
        rfl
      have hbefore : c.univ.boundsOf owner' index =
          ((d.parameters[index]?).map (·.constraints)).getD [] := by
        rw [boundsOf, parameter?, hd]
        rfl
      rw [hafter, hbefore, constraints_withConstraint d bound hlt]
      congr 1
      simp [hs, Except.isOk, Except.toBool]
    · have hne : ¬ c.univ.shape? param = some (.param owner index) := fun h => by
        cases hs.symm.trans h
        exact hown rfl
      rw [if_neg fun h => hne h.2]
      exact boundsOf_of_get?_eq ((get?_revised _ _ _ _).trans (if_neg hown))

/-- A step adds to the bounds of a parameter what it is accepted for. -/
theorem boundsOf_run (hc : c.univ.Grounded) (h : s.allowed c.univ) (owner : DeclId) (index : Nat) :
    (s.run c).2.univ.boundsOf owner index =
      appendNew (c.univ.boundsOf owner index) (s.bounds owner index c) := by
  cases hs : s.declares with
  | false =>
    rw [bounds_of_declares_eq_false owner index hs]
    exact boundsOf_of_get?_eq (by rw [catalog_run hc hs h])
  | true =>
    cases s with
    | makeGeneric definition args => cases hs
    | query verdicts limits source target => cases hs
    | operation op =>
      cases op with
      | declare d =>
        rcases get?_declare hc d owner with hsame | ⟨hnone, hnew⟩
        · exact boundsOf_of_get?_eq hsame
        · show ((Declaring.declare d).run c).2.univ.boundsOf owner index = c.univ.boundsOf owner index
          have hnil : ((d.stripped.parameters[index]?).map (·.constraints)).getD [] = [] := by
            cases hp : d.stripped.parameters[index]? with
            | none => rfl
            | some p => exact d.bare_stripped.bounds p (List.mem_of_getElem? hp)
          rw [boundsOf, boundsOf, parameter?, parameter?, hnone, hnew]
          exact hnil
      | setBase declared base =>
        show ((Declaring.setBase declared base).run c).2.univ.boundsOf owner index =
          c.univ.boundsOf owner index
        rw [Declaring.run_setBase]
        split
        · exact boundsOf_revised (f := fun d => { d with base := some base }) (fun _ => rfl) _ _ _
        · rfl
      | addInterface declared interface =>
        show ((Declaring.addInterface declared interface).run c).2.univ.boundsOf owner index =
          c.univ.boundsOf owner index
        rw [Declaring.run_addInterface]
        split
        · split_ifs
          · rfl
          · exact boundsOf_revised (f := (·.withInterface interface))
              (fun d => (frame_withInterface d interface).2.2) _ _ _
        · rfl
      | addConstraint param bound => exact boundsOf_run_addConstraint hc param bound owner index
      | _ => cases hs

/-! ## Runs -/

/-- What the steps of a run add up to. -/
def additions (add : Chronicle → Step → List Handle) : List Step → Chronicle → List Handle
  | [], _ => []
  | s :: steps, c => add c s ++ additions add steps (s.run c).2

theorem additions_concat (add : Chronicle → Step → List Handle) (steps : List Step) (s : Step)
    (c : Chronicle) :
    additions add (steps ++ [s]) c = additions add steps c ++ add (runAll steps c) s := by
  induction steps generalizing c with
  | nil => simp [additions, runAll]
  | cons t steps ih =>
    rw [List.cons_append, additions, additions, ih, List.append_assoc]
    rfl

/-- A list to which steps only append what is new holds all that they add, in the order in which it
came first. -/
theorem eq_eraseDups_additions (read : Universe → List Handle) (add : Chronicle → Step → List Handle)
    (hfresh : read Chronicle.fresh.univ = [])
    (hstep : ∀ s c, c.univ.Grounded → s.allowed c.univ →
      read (s.run c).2.univ = appendNew (read c.univ) (add c s))
    (steps : List Step) (h : allAllowed steps .fresh) :
    read (runAll steps .fresh).univ = (additions add steps .fresh).eraseDups := by
  refine (run_induction (motive := fun steps c =>
    read c.univ = (additions add steps .fresh).eraseDups) ?_ ?_ steps h).2
  · rw [hfresh]
    rfl
  · rintro steps s _ rfl hc hs ih
    rw [additions_concat, eraseDups_append_eq_appendNew, ← ih]
    exact hstep s _ hc hs

theorem get?_fresh (decl : DeclId) : Chronicle.fresh.univ.catalog.get? decl = none :=
  Catalog.get?_empty decl

theorem wellDeclared_fresh : Chronicle.fresh.univ.WellDeclared := by
  constructor
  · intro decl d hd
    simp [get?_fresh] at hd
  · intro decl d hd
    simp [get?_fresh] at hd

theorem wellDeclared_runAll (steps : List Step) (h : allAllowed steps .fresh) :
    (runAll steps .fresh).univ.WellDeclared := by
  refine (run_induction (motive := fun _ c => c.univ.WellDeclared) wellDeclared_fresh ?_ steps h).2
  intro steps s c _ hc hs hw
  exact (evolves_run (A := fun _ => True) hc hs (fun _ _ _ => trivial) c.journal).wellDeclared hw

/-- However a universe is used, as long as the arguments put for parameters are known: no declaration
inherits from itself; bases are classes or structs, and interfaces have none; only interfaces are listed
as such; a declaration mentions its own parameters only; listed interfaces and bounds are those that were
accepted, without repetition and in the order in which they came first. A base or interface that
passes all other checks is refused exactly if it would close a circle, where a new base replaces the old
one. -/
theorem hierarchy_wellFormed (steps : List Step) (h : allAllowed steps .fresh) :
    let c := runAll steps .fresh
    let u := c.univ
    (∀ decl, ¬ TransGen u.Inherits decl decl) ∧
    (∀ decl d, u.catalog.get? decl = some d →
      (∀ base, d.base = some base → u.isBaseKind base ∧ d.isInterface = false) ∧
      (∀ ty ∈ d.interfaces, u.isInterface ty) ∧
      (∀ ty ∈ d.mentioned, ∀ owner index, u.Mentions ty owner index → owner = decl) ∧
      (d.interfaces.Nodup ∧ d.interfaces = (additions (lists decl) steps .fresh).eraseDups) ∧
      ∀ index p, d.parameters[index]? = some p → p.constraints.Nodup ∧
        p.constraints = (additions (bounds decl index) steps .fresh).eraseDups) ∧
    ∀ decl d declared ty, u.catalog.get? decl = some d → u.ownType? decl = some declared →
      (∀ owner index, u.Mentions ty owner index → owner = decl) →
      (d.isInterface = false → u.isBaseKind ty →
        RefusesCircle ((Declaring.setBase declared ty).run c).1 (u.withBase decl ty)
          (.cyclicInheritance d.name (u.display ty))) ∧
      (u.isInterface ty →
        RefusesCircle ((Declaring.addInterface declared ty).run c).1 (u.withInterface decl ty)
          (.cyclicInheritance d.name (u.display ty))) := by
  intro c u
  have hu : u.Grounded := grounded_runAll steps h
  have hw : u.WellDeclared := wellDeclared_runAll steps h
  refine ⟨hu.consistent.acyclic, fun decl d hd => ⟨fun base hbase => ⟨?_, ?_⟩, ?_, ?_, ?_, ?_⟩,
    fun decl d declared ty hd hown hscope => ⟨fun hclass hkind => ?_, fun hkind => ?_⟩⟩
  · exact hu.consistent.base hd hbase
  · rw [← Bool.not_eq_true]
    intro hint
    rw [hw.no_base hd hint] at hbase
    cases hbase
  · exact hu.consistent.interfaces hd
  · exact fun ty hty => hu.anyOwner_ne_eq_false_iff.1 (hw.scope hd ty hty)
  · have hlisted : d.interfaces = (additions (lists decl) steps .fresh).eraseDups := by
      have hread := eq_eraseDups_additions (·.listed decl) (lists decl) ?_
        (fun s c hc hs => listed_run hc hs decl) steps h
      · rw [← hread]
        show d.interfaces = u.listed decl
        rw [listed, hd]
        rfl
      · rw [listed, get?_fresh]
        rfl
    exact ⟨hlisted ▸ nodup_eraseDups _, hlisted⟩
  · intro index p hp
    have hbounds : p.constraints = (additions (bounds decl index) steps .fresh).eraseDups := by
      have hread := eq_eraseDups_additions (·.boundsOf decl index) (bounds decl index) ?_
        (fun s c hc hs => boundsOf_run hc hs decl index) steps h
      · rw [← hread]
        show p.constraints = u.boundsOf decl index
        rw [boundsOf, parameter?, hd, Option.bind_some, hp]
        rfl
      · rw [boundsOf, parameter?, get?_fresh]
        rfl
    exact ⟨hbounds ▸ nodup_eraseDups _, hbounds⟩
  · exact hu.refusesCircle_setBase hown hd hclass hkind (hu.anyOwner_ne_eq_false_iff.2 hscope) _
  · exact hu.refusesCircle_addInterface hown hd hkind (hu.anyOwner_ne_eq_false_iff.2 hscope) _

/-- A class `A`, a class `B` with base `A`, and an interface that `B` is asked to list twice. -/
def chained : List Step :=
  [.operation (.declare (.bare .classKind "A" [])), .operation (.declare (.bare .classKind "B" [])),
    .operation (.setBase ⟨2⟩ ⟨1⟩), .operation (.declare (.bare .interfaceKind "I" [])),
    .operation (.addInterface ⟨2⟩ ⟨3⟩), .operation (.addInterface ⟨2⟩ ⟨3⟩)]

theorem hierarchy_wellFormed_chained :
    allAllowed chained .fresh ∧
      (additions (lists ⟨2⟩) chained .fresh).eraseDups = [⟨3⟩] ∧
      ((Declaring.setBase ⟨1⟩ ⟨2⟩).run (runAll chained .fresh)).1 =
        .error (.cyclicInheritance "A" ((runAll chained .fresh).univ.display ⟨2⟩)) := by
  have hallowed : allAllowed chained .fresh := by cbv
  obtain ⟨-, hdecls, hcircles⟩ := hierarchy_wellFormed chained hallowed
  refine ⟨hallowed, ?_, ?_⟩
  · have hB : (runAll chained .fresh).univ.catalog.get? ⟨2⟩ = some
        { kind := .classKind, name := "B", base := some ⟨1⟩, interfaces := [⟨3⟩] } := by cbv
    obtain ⟨-, -, -, ⟨-, hlisted⟩, -⟩ := hdecls ⟨2⟩ _ hB
    exact hlisted.symm
  · have hA : (runAll chained .fresh).univ.catalog.get? ⟨1⟩ =
        some { kind := .classKind, name := "A" } := by cbv
    have hown : (runAll chained .fresh).univ.ownType? ⟨1⟩ = some ⟨1⟩ := by cbv
    have hplain : (runAll chained .fresh).univ.shape? ⟨2⟩ = some (.plain ⟨2⟩) := by cbv
    obtain ⟨hbase, -⟩ := hcircles ⟨1⟩ _ ⟨1⟩ ⟨2⟩ hA hown
      fun owner index hm => absurd hm (not_mentions_of_plain hplain)
    have hup : ((runAll chained .fresh).univ.withBase ⟨1⟩ ⟨2⟩).parents ⟨1⟩ = [⟨2⟩] := by cbv
    have hback : ((runAll chained .fresh).univ.withBase ⟨1⟩ ⟨2⟩).parents ⟨2⟩ = [⟨1⟩, ⟨3⟩] := by cbv
    refine (hbase rfl (by cbv)).1.2 ⟨⟨1⟩, .tail (.single (b := ⟨2⟩) ?_) ?_⟩
    · rw [Inherits, hup]
      simp
    · rw [Inherits, hback]
      simp

end Step

end Subtyping
