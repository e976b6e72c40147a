import Subtyping.Proofs.Canonical
import Subtyping.Proofs.Constraints
import Subtyping.Proofs.Enrolling
import Subtyping.Proofs.InterfaceOrder

/-!
# Well-formed files

What a text of a file stands for is a matter of the file alone (`Manifest.StandsFor`). A name is a
parameter of the declaration where it is used or else something that the file declares, no matter whether
before or after. A file is well formed (`Manifest.WellFormed`) if its names are different, every text
stands for a type that suits its place, and no declaration is above itself.

Loading checks one reference at a time, against what has been attached before. It succeeds for exactly the
well-formed files, and then each definition has what its declaration lists, in the same order and without
repetitions (`Manifest.build_exact`).
-/

namespace Subtyping

open Relation

/-! ## Lists -/

section Lists

variable {α β : Type}

/-- If only one member gives something, that is all there is. -/
theorem flatMap_eq_of_unique {l : List α} {f : α → List β} {a : α} (hnodup : l.Nodup) (ha : a ∈ l)
    (h : ∀ b ∈ l, b ≠ a → f b = []) : l.flatMap f = f a := by
  obtain ⟨l₁, l₂, rfl⟩ := List.append_of_mem ha
  rw [List.nodup_middle, List.nodup_cons] at hnodup
  have hnil : ∀ l' ⊆ l₁ ++ l₂, l'.flatMap f = [] := by
    intro l' hsub
    refine List.flatMap_eq_nil_iff.2 fun b hb => h b ?_ ?_
    · have := hsub hb
      simp only [List.mem_append, List.mem_cons] at this ⊢
      tauto
    · rintro rfl
      exact hnodup.1 (hsub hb)
  rw [List.flatMap_append, List.flatMap_cons, hnil l₁ (List.subset_append_left _ _),
    hnil l₂ (List.subset_append_right _ _), List.nil_append, List.append_nil]

/-- So it is with the member at a position. -/
theorem flatMap_zipIdx_eq {l : List α} {f : α × Nat → List β} {index : Nat}
    (h : ∀ p, p.2 ≠ index → f p = []) :
    l.zipIdx.flatMap f = (l[index]?.map fun a => f (a, index)).getD [] := by
  have hat : ∀ p ∈ l.zipIdx, p.2 = index → l[index]? = some p.1 := by
    rintro p hp rfl
    exact List.mem_zipIdx_iff_getElem?.1 hp
  cases ha : l[index]? with
  | none =>
    rw [List.flatMap_eq_nil_iff.2 fun p hp => h p fun hi => ?_]
    · rfl
    · cases ha.symm.trans (hat p hp hi)
  | some a =>
    refine flatMap_eq_of_unique ((List.nodup_zipIdx_map_snd l).of_map _)
      (List.mem_zipIdx_iff_getElem?.2 ha) fun p hp hne => h p fun hi => hne ?_
    exact Prod.ext (Option.some.inj ((hat p hp hi).symm.trans ha)) hi

theorem exists_mapM_eq_some_iff {f : α → Option β} {l : List α} :
    (∃ bs, l.mapM f = some bs) ↔ ∀ a ∈ l, ∃ b, f a = some b := by
  induction l with
  | nil => simp
  | cons a l ih =>
    rw [List.forall_mem_cons, ← ih, List.mapM_cons]
    constructor
    · rintro ⟨bs, hbs⟩
      obtain ⟨b, hb, hbs⟩ := Option.bind_eq_some_iff.1 hbs
      obtain ⟨bs', hbs', -⟩ := Option.bind_eq_some_iff.1 hbs
      exact ⟨⟨b, hb⟩, bs', hbs'⟩
    · rintro ⟨⟨b, hb⟩, bs, hbs⟩
      exact ⟨b :: bs, by rw [hb, hbs]; rfl⟩

theorem mem_iff_of_mapM_eq_some {f : α → Option β} {l : List α} {bs : List β} (h : l.mapM f = some bs)
    (b : β) : b ∈ bs ↔ ∃ a ∈ l, f a = some b := by
  have hall := forall₂_of_mapM_eq_some h
  clear h
  induction hall with
  | nil => simp
  | @cons a b' l bs hab _ ih => simp [ih, hab, eq_comm]

theorem listing_eraseDups (ts : List Ty) (t : Ty) :
    listing ts.eraseDups t = (ts ++ [t]).eraseDups := by
  by_cases ht : t ∈ ts
  · rw [listing, if_pos (List.mem_eraseDups.2 ht), eraseDups_append_of_subset (by simpa using ht)]
  · rw [listing, if_neg (mt List.mem_eraseDups.1 ht), eraseDups_append_singleton ht]

end Lists

/-! ## Trees -/

namespace Ty

theorem isGeneric_own (decl : DeclId) (arity : Nat) : (own decl arity).isGeneric = true ↔ arity ≠ 0 := by
  unfold own
  split_ifs with h <;> simp [isGeneric, h]

/-- The owners of parameters are those of the parameters that are part of the tree. -/
theorem anyOwner_iff (p : DeclId → Bool) (t : Ty) :
    t.anyOwner p = true ↔ ∃ owner index, (param owner index).Part t ∧ p owner := by
  induction t with
  | plain decl =>
    refine ⟨Bool.noConfusion, ?_⟩
    rintro ⟨owner, index, hpart, -⟩
    cases hpart
  | param owner index =>
    refine ⟨fun h => ⟨owner, index, .refl, h⟩, ?_⟩
    rintro ⟨owner', index', hpart, h⟩
    cases hpart
    exact h
  | applied decl args ih =>
    rw [anyOwner, anyOwnerIn_eq_any, List.any_eq_true]
    constructor
    · rintro ⟨a, ha, h⟩
      obtain ⟨owner, index, hpart, hp⟩ := (ih a ha).1 h
      exact ⟨owner, index, .arg ha hpart, hp⟩
    · rintro ⟨owner, index, hpart, hp⟩
      cases hpart with
      | arg ha hpart => exact ⟨_, ha, (ih _ ha).2 ⟨owner, index, hpart, hp⟩⟩

end Ty

/-! ## What is attached in a place -/

/-- The types of a declaration in one place. -/
def Declaration.attached (d : Declaration) : Slot → List Handle
  | .base => d.base.toList
  | .interface => d.interfaces
  | .bound index => ((d.parameters[index]?).map (·.constraints)).getD []

namespace Signature

open Attachment

/-- What a signature says of a declaration in one place. -/
def attached (S : Signature) (decl : DeclId) : Slot → List Ty
  | .base => (S.declBase decl).toList
  | .interface => S.declInterfaces decl
  | .bound index => S.bounds decl index

variable {S : Signature} {a : Attachment} {l : List Attachment}

theorem isBaseKind_iff {t : Ty} :
    S.isBaseKind t = true ↔ ∃ k, S.kindOf? t = some k ∧ k ≠ .interfaceKind := by
  unfold isBaseKind
  cases S.kindOf? t with
  | none => simp
  | some k => cases k <;> simp

/-- One more type is appended in its place, unless it is there, and other places stay as they are. -/
theorem attached_attach (hbase : a.slot = .base → S.attached a.decl .base = []) (decl : DeclId)
    (slot : Slot) :
    (S.attach a).attached decl slot =
      if a.key = (decl, slot) then listing (S.attached decl slot) a.type else S.attached decl slot := by
  obtain ⟨decl', slot', t⟩ := a
  by_cases hdecl : decl = decl'
  · subst hdecl
    cases slot' with
    | base =>
      have hnone := hbase rfl
      cases slot <;> simp_all [attach, attached, key, listing]
    | interface => cases slot <;> simp [attach, attached, key]
    | bound index =>
      cases slot with
      | base => simp [attach, attached, key]
      | interface => simp [attach, attached, key]
      | bound index' => by_cases hi : index = index' <;> simp [attach, attached, key, hi, eq_comm]
  · cases slot' <;> cases slot <;> simp [attach, attached, key, hdecl, Ne.symm hdecl]

/-- Where nothing was attached before, it is the attachments to a place that are there, in their order. -/
theorem attached_foldl_attach (hS : ∀ decl slot, S.attached decl slot = [])
    (hone : OneBase (l.map key)) (decl : DeclId) (slot : Slot) :
    (l.foldl attach S).attached decl slot =
      ((l.filter (·.key = (decl, slot))).map (·.type)).eraseDups := by
  induction l using List.reverseRecOn generalizing decl slot with
  | nil => exact hS decl slot
  | append_singleton l a ih =>
    rw [OneBase, List.map_append, List.pairwise_append] at hone
    obtain ⟨hone, -, hnew⟩ := hone
    rw [List.foldl_append, List.foldl_cons, List.foldl_nil, attached_attach, ih hone]
    · rw [List.filter_append, List.map_append]
      split_ifs with hkey
      · rw [listing_eraseDups]
        simp [hkey]
      · simp [hkey]
    · intro hslot
      have hnone : l.filter (·.key = (a.decl, .base)) = [] := by
        rw [List.filter_eq_nil_iff]
        intro b hb hkey
        have hkey : b.key = (a.decl, .base) := by simpa using hkey
        refine hnew b.key (List.mem_map_of_mem hb) a.key (by simp) (by rw [hkey]) ?_
        rw [hkey, key, hslot]
      rw [ih hone, hnone, List.map_nil, List.eraseDups_nil]

end Signature

namespace Universe

variable {u : Universe} {decl : DeclId} {d : Declaration} {slot : Slot}

theorem attached_signature (hd : u.catalog.get? decl = some d) (slot : Slot) :
    u.signature.attached decl slot = (d.attached slot).map u.typeAt := by
  obtain ⟨hbase, hints, hbounds⟩ := signature_of_get? hd
  cases slot with
  | base => rw [Signature.attached, hbase, Declaration.attached, Option.toList_map]
  | interface => exact hints
  | bound index => exact congrFun hbounds index

/-- What is attached is known. -/
theorem Consistent.contains_of_mem_attached (hu : u.Consistent) (hd : u.catalog.get? decl = some d)
    {ty : Handle} (hty : ty ∈ d.attached slot) : u.contains ty := by
  cases slot with
  | base => exact contains_of_isBaseKind (hu.base hd (Option.mem_toList.1 hty))
  | interface => exact contains_of_isInterface (hu.interfaces hd ty hty)
  | bound index =>
    rw [Declaration.attached] at hty
    cases hp : d.parameters[index]? with
    | none => simp [hp] at hty
    | some p =>
      rw [hp] at hty
      exact hu.bounds hd p (List.mem_of_getElem? hp) ty hty

end Universe

namespace Manifest

open Universe

variable {ds : List Decl} {d d' : Decl}

/-! ## What a file says -/

/-- The type that an expression stands for in a declaration of a file. -/
inductive Denotes (ds : List Decl) (d : Decl) : TypeExpr → Ty → Prop where
  /-- The first parameter of the name. It hides what the file declares under this name. -/
  | param {name : String} {index : Nat} (h : (d.params.map Param.name).idxOf? name = some index) :
      Denotes ds d (.name name) (.param (numberIn ds d) index)
  | plain {d' : Decl} (hparam : d'.name ∉ d.params.map Param.name) (hd : d' ∈ ds)
      (hplain : d'.params = []) : Denotes ds d (.name d'.name) (.plain (numberIn ds d'))
  | applied {d' : Decl} {args : List TypeExpr} {ts : List Ty} (hd : d' ∈ ds)
      (hgeneric : d'.params ≠ []) (harity : args.length = d'.params.length)
      (hlength : ts.length = args.length) (hargs : ∀ p ∈ args.zip ts, Denotes ds d p.1 p.2) :
      Denotes ds d (.apply d'.name args) (.applied (numberIn ds d') ts)
  | slots {d' : Decl} (hd : d' ∈ ds) (hgeneric : d'.params ≠ []) :
      Denotes ds d (.slots d'.name d'.params.length) (.own (numberIn ds d') d'.params.length)

/-- The type that a text stands for in a declaration of a file. -/
def StandsFor (ds : List Decl) (d : Decl) (text : String) (t : Ty) : Prop :=
  ∃ e, TypeExpr.parse text = .ok e ∧ Denotes ds d e t

/-- The texts of a declaration for one place. -/
def Decl.texts (d : Decl) : Slot → List String
  | .base => d.base.toList
  | .interface => d.interfaces
  | .bound index => ((d.params[index]?).map Param.constraints).getD []

/-- A type is headed by a declaration of the file whose kind has a property. -/
def HeadKind (ds : List Decl) (p : Kind → Prop) (t : Ty) : Prop :=
  ∃ d ∈ ds, t.head? = some (numberIn ds d) ∧ p d.kind

/-- A type may be attached to a declaration, circles apart. It has no parameters of other declarations;
only classes and structs have a base, which is a class or a struct; and interfaces are interfaces. -/
def Suits (ds : List Decl) (d : Decl) (slot : Slot) (t : Ty) : Prop :=
  (∀ owner index, (Ty.param owner index).Part t → owner = numberIn ds d) ∧
    match slot with
    | .base => d.kind ≠ .interfaceKind ∧ HeadKind ds (· ≠ .interfaceKind) t
    | .interface => HeadKind ds (· = .interfaceKind) t
    | .bound _ => True

/-- One declaration has a base or an interface that the other one heads. -/
def Inherits (ds : List Decl) (child parent : DeclId) : Prop :=
  ∃ d ∈ ds, child = numberIn ds d ∧ ∃ text ∈ d.texts .base ++ d.texts .interface, ∃ t,
    StandsFor ds d text t ∧ t.head? = some parent

/-- Names are different, every text stands for a type that suits its place, and inheritance has no
circles. -/
structure WellFormed (ds : List Decl) : Prop where
  names : (ds.map (·.name)).Nodup
  suits : ∀ d ∈ ds, ∀ slot, ∀ text ∈ d.texts slot, ∃ t, StandsFor ds d text t ∧ Suits ds d slot t
  acyclic : ∀ decl, ¬ TransGen (Inherits ds) decl decl

/-- A definition is what a declaration of the file says. In each place it has the types that the texts
stand for, in their order, with repetitions left out. -/
structure Defines (ds : List Decl) (u : Universe) (d : Decl) (d' : Declaration) : Prop where
  kind : d'.kind = d.kind
  name : d'.name = d.name
  params : d'.parameters.map (·.name) = d.params.map Param.name
  attached : ∀ slot, ∃ ts, List.Forall₂ (StandsFor ds d) (d.texts slot) ts ∧
    List.Forall₂ u.Reads (d'.attached slot) ts.eraseDups

/-! ## References by place -/

theorem Decl.texts_references (d : Decl) (decl : DeclId) (slot : Slot) :
    ((d.references decl).filter (·.slot = slot)).map (·.text) = d.texts slot := by
  rw [references, List.filter_append, List.filter_append, List.filter_map, List.filter_map,
    List.filter_flatMap]
  cases slot with
  | base => simp [texts, Function.comp_def, List.filter_map]
  | interface => simp [texts, Function.comp_def, List.filter_map]
  | bound index =>
    simp only [texts, Function.comp_def, List.filter_map, reduceCtorEq, decide_false,
      List.filter_false, List.map_nil, List.nil_append, Slot.bound.injEq]
    have hother : ∀ p : Param × Nat, p.2 ≠ index →
        (p.1.constraints.filter fun _ => decide (p.2 = index)).map
          (fun text => (⟨decl, .bound p.2, text⟩ : Reference)) = [] := by
      intro p hne
      simp [hne]
    rw [flatMap_zipIdx_eq hother]
    cases d.params[index]? <;> simp [Function.comp_def]

/-- The references of a file to one place are those of one declaration. -/
theorem filter_references (hnodup : ds.Nodup) (hd : d ∈ ds) (slot : Slot) :
    (references ds).filter (·.key = (numberIn ds d, slot)) =
      (d.references (numberIn ds d)).filter (·.slot = slot) := by
  rw [references, List.filter_flatMap, flatMap_eq_of_unique hnodup hd]
  · refine List.filter_congr fun r hr => ?_
    simp [Reference.key, Decl.decl_of_mem_references hr]
  · intro d' hd' hne
    rw [List.filter_eq_nil_iff]
    intro r hr hkey
    simp only [Reference.key, Decl.decl_of_mem_references hr, decide_eq_true_eq, Prod.mk.injEq] at hkey
    exact hne (numberIn_injOn hd' hkey.1)

theorem mem_references_iff {r : Reference} :
    r ∈ references ds ↔ ∃ d ∈ ds, r.decl = numberIn ds d ∧ r.text ∈ d.texts r.slot := by
  rw [references, List.mem_flatMap]
  refine exists_congr fun d => and_congr_right fun _ => ?_
  rw [← d.texts_references (numberIn ds d) r.slot, List.mem_map]
  constructor
  · intro hr
    exact ⟨Decl.decl_of_mem_references hr, r, List.mem_filter.2 ⟨hr, by simp⟩, rfl⟩
  · rintro ⟨hdecl, r', hr', htext⟩
    obtain ⟨hr', hslot⟩ := List.mem_filter.1 hr'
    have hdecl' := Decl.decl_of_mem_references hr'
    obtain ⟨decl, slot, text⟩ := r
    obtain ⟨decl', slot', text'⟩ := r'
    simp_all

/-! ## Files and universes -/

theorem Decl.isGeneric_bare (d : Decl) : d.bare.isGeneric = true ↔ d.params ≠ [] := by
  simp [bare, Declaration.isGeneric, Declaration.bare]

namespace Enrolled

variable {u : Universe} {tys : List Handle} (h : Enrolled ds tys u)
include h

/-- Names stand for what the file declares. -/
theorem named?_eq_some_iff {name : String} {t : Ty} :
    u.named? name = some t ↔
      ∃ d ∈ ds, d.name = name ∧ t = .own (numberIn ds d) d.params.length := by
  rw [Universe.named?, Option.map_eq_some_iff]
  constructor
  · rintro ⟨ty, hty, rfl⟩
    obtain ⟨decl, hdecl, hown⟩ := Option.bind_eq_some_iff.1 hty
    obtain ⟨d', hd', hname⟩ := (h.named _ _).1 hdecl
    obtain ⟨d, hd, rfl, rfl⟩ := h.exists_of_get? hd'
    obtain ⟨d'', hd'', hr⟩ := h.valid.reads_of_ownType? hown
    cases hd'.symm.trans hd''
    rw [d.arity_bare] at hr
    exact ⟨d, hd, hname, hr.2⟩
  · rintro ⟨d, hd, rfl, rfl⟩
    have hget := h.get?_numberIn hd
    obtain ⟨ty, hown, hr⟩ := h.valid.owned hget
    rw [d.arity_bare] at hr
    refine ⟨ty, ?_, hr.2⟩
    rw [lookup, (h.named d.name _).2 ⟨d.bare, hget, rfl⟩]
    exact hown

theorem paramNamed?_numberIn (hd : d ∈ ds) (name : String) :
    u.paramNamed? name (numberIn ds d) =
      ((d.params.map Param.name).idxOf? name).map (Ty.param (numberIn ds d)) := by
  rw [paramNamed?, h.get?_numberIn hd, Option.bind_some, List.idxOf?]
  congr 1
  simp [Decl.bare, Declaration.bare, List.findIdx?_map, Function.comp_def]

theorem applied?_eq_some_iff (hd : d ∈ ds) {arity : Nat} {ts : List Ty} {t : Ty} :
    u.applied? (.own (numberIn ds d) arity) ts = some t ↔
      d.params ≠ [] ∧ ts.length = d.params.length ∧ t = .applied (numberIn ds d) ts := by
  rw [applied?, Ty.head?_own, Option.bind_some, h.get?_numberIn hd, Option.bind_some, d.arity_bare]
  have hcond : (d.bare.isGeneric && d.params.length == ts.length) = true ↔
      d.params ≠ [] ∧ ts.length = d.params.length := by
    rw [Bool.and_eq_true, d.isGeneric_bare, beq_iff_eq, eq_comm (a := ts.length)]
  simp only [hcond, Option.ite_none_right_eq_some, Option.some.injEq, and_assoc, eq_comm (b := t)]

end Enrolled

variable {u v : Universe} {tys : List Handle} {as : List Attachment} {slot : Slot} {t : Ty}

mutual

/-- Once all is declared, an expression stands for the type that the file says. -/
theorem Enrolled.denote_eq_some_iff (h : Enrolled ds tys u) (hd : d ∈ ds) : ∀ (e : TypeExpr) (t : Ty),
    u.denote (some (numberIn ds d)) e = some t ↔ Denotes ds d e t
  | .name n, t => by
    rw [denote, Option.bind_some, h.paramNamed?_numberIn hd, Option.or_eq_some_iff]
    constructor
    · rintro (hparam | ⟨hnone, hplain⟩)
      · obtain ⟨index, hindex, rfl⟩ := Option.map_eq_some_iff.1 hparam
        exact .param hindex
      · obtain ⟨t', ht', hguard⟩ := Option.bind_eq_some_iff.1 hplain
        obtain ⟨d', hd', rfl, rfl⟩ := h.named?_eq_some_iff.1 ht'
        obtain ⟨rfl, hclosed⟩ := Option.guard_eq_some_iff.1 hguard
        have hparams : d'.params = [] := by
          rw [Bool.not_eq_true', ← Bool.not_eq_true, Ty.isGeneric_own, not_not] at hclosed
          exact List.length_eq_zero_iff.1 hclosed
        rw [hparams]
        exact .plain (by simpa using hnone) hd' hparams
    · intro hden
      cases hden with
      | param hindex => exact Or.inl (by rw [hindex]; rfl)
      | plain hparam hd' hplain =>
        refine Or.inr ⟨by simpa using hparam, ?_⟩
        rw [h.named?_eq_some_iff.2 ⟨_, hd', rfl, rfl⟩, hplain]
        rfl
  | .slots n arity, t => by
    rw [denote]
    constructor
    · intro hsome
      obtain ⟨t', ht', hguard⟩ := Option.bind_eq_some_iff.1 hsome
      obtain ⟨d', hd', rfl, rfl⟩ := h.named?_eq_some_iff.1 ht'
      obtain ⟨rfl, hopen⟩ := Option.guard_eq_some_iff.1 hguard
      simp only [Bool.and_eq_true, Ty.isGeneric_own, Ty.args_own, List.length_map, List.length_range,
        beq_iff_eq, ne_eq, List.length_eq_zero_iff] at hopen
      obtain ⟨hgeneric, rfl⟩ := hopen
      exact .slots hd' hgeneric
    · intro hden
      cases hden with
      | slots hd' hgeneric =>
        rw [h.named?_eq_some_iff.2 ⟨_, hd', rfl, rfl⟩, Option.bind_some, Option.guard_eq_some_iff]
        simp [Ty.isGeneric_own, Ty.args_own, hgeneric]
  | .apply n args, t => by
    rw [denote]
    constructor
    · intro hsome
      obtain ⟨definition, hdef, hsome⟩ := Option.bind_eq_some_iff.1 hsome
      obtain ⟨ts, hts, happlied⟩ := Option.bind_eq_some_iff.1 hsome
      obtain ⟨d', hd', rfl, rfl⟩ := h.named?_eq_some_iff.1 hdef
      obtain ⟨hgeneric, hlength, rfl⟩ := (h.applied?_eq_some_iff hd').1 happlied
      obtain ⟨hlength', hargs⟩ := (Enrolled.denoteAll_eq_some_iff h hd args ts).1 hts
      exact .applied hd' hgeneric (hlength'.symm.trans hlength) hlength' hargs
    · intro hden
      cases hden with
      | applied hd' hgeneric harity hlength hargs =>
        rw [h.named?_eq_some_iff.2 ⟨_, hd', rfl, rfl⟩, Option.bind_some,
          (Enrolled.denoteAll_eq_some_iff h hd args _).2 ⟨hlength, hargs⟩, Option.bind_some]
        exact (h.applied?_eq_some_iff hd').2 ⟨hgeneric, hlength.trans harity, rfl⟩

theorem Enrolled.denoteAll_eq_some_iff (h : Enrolled ds tys u) (hd : d ∈ ds) :
    ∀ (es : List TypeExpr) (ts : List Ty), u.denoteAll (some (numberIn ds d)) es = some ts ↔
      ts.length = es.length ∧ ∀ p ∈ es.zip ts, Denotes ds d p.1 p.2
  | [], ts => by
    rw [denoteAll]
    cases ts <;> simp
  | e :: es, [] => by
    rw [denoteAll]
    simp [Option.bind_eq_some_iff]
  | e :: es, t :: ts => by
    have hcons : u.denoteAll (some (numberIn ds d)) (e :: es) = some (t :: ts) ↔
        u.denote (some (numberIn ds d)) e = some t ∧
          u.denoteAll (some (numberIn ds d)) es = some ts := by
      rw [denoteAll]
      simp [Option.bind_eq_some_iff]
    rw [hcons, Enrolled.denote_eq_some_iff h hd e t, Enrolled.denoteAll_eq_some_iff h hd es ts]
    simp [and_left_comm]

end

namespace Enrolled

variable (h : Enrolled ds tys u)
include h

theorem denoteText_eq_some_iff (hd : d ∈ ds) {text : String} :
    u.denoteText (some (numberIn ds d)) text = some t ↔ StandsFor ds d text t := by
  rw [denoteText, StandsFor]
  cases TypeExpr.parse text with
  | ok e => simp [Except.toOption, h.denote_eq_some_iff hd]
  | error e => simp [Except.toOption]

theorem headKind_iff (p : Kind → Prop) :
    HeadKind ds p t ↔ ∃ k, u.signature.kindOf? t = some k ∧ p k := by
  constructor
  · rintro ⟨d, hd, hhead, hp⟩
    refine ⟨d.kind, ?_, hp⟩
    rw [Signature.kindOf?, hhead, Option.bind_some, signature]
    dsimp only
    rw [h.get?_numberIn hd]
    rfl
  · rintro ⟨k, hk, hp⟩
    obtain ⟨decl, hhead, hk⟩ := Option.bind_eq_some_iff.1 hk
    obtain ⟨d', hd', rfl⟩ := Option.map_eq_some_iff.1 hk
    obtain ⟨d, hd, rfl, rfl⟩ := h.exists_of_get? hd'
    exact ⟨d, hd, hhead, hp⟩

/-- A type is admitted exactly if it suits its place. -/
theorem admits_iff (hd : d ∈ ds) :
    u.signature.Admits ⟨numberIn ds d, slot, t⟩ ↔ Suits ds d slot t := by
  have hscope : t.anyOwner (· != numberIn ds d) = false ↔
      ∀ owner index, (Ty.param owner index).Part t → owner = numberIn ds d := by
    rw [← Bool.not_eq_true, Ty.anyOwner_iff]
    simp
  have hkind : u.signature.kind? (numberIn ds d) = some d.kind := by
    rw [signature]
    dsimp only
    rw [h.get?_numberIn hd]
    rfl
  cases slot with
  | base =>
    simp only [Signature.Admits, Suits, hscope, hkind, h.headKind_iff, Signature.isBaseKind_iff, ne_eq,
      Option.some.injEq]
  | interface =>
    simp only [Signature.Admits, Suits, hscope, h.headKind_iff, Signature.isInterface, beq_iff_eq,
      exists_eq_right]
  | bound index => simp only [Signature.Admits, Suits, hscope]

theorem mem_attachments_iff (has : (references ds).mapM u.attachment? = some as) {a : Attachment} :
    a ∈ as ↔ ∃ d ∈ ds, a.decl = numberIn ds d ∧ ∃ text ∈ d.texts a.slot, StandsFor ds d text a.type := by
  rw [mem_iff_of_mapM_eq_some has]
  constructor
  · rintro ⟨r, hr, ha⟩
    obtain ⟨d, hd, hdecl, htext⟩ := mem_references_iff.1 hr
    obtain ⟨t, ht, rfl⟩ := Option.map_eq_some_iff.1 ha
    rw [hdecl, h.denoteText_eq_some_iff hd] at ht
    exact ⟨d, hd, hdecl, r.text, htext, ht⟩
  · rintro ⟨d, hd, hdecl, text, htext, ht⟩
    refine ⟨⟨a.decl, a.slot, text⟩, mem_references_iff.2 ⟨d, hd, hdecl, htext⟩, ?_⟩
    rw [attachment?, hdecl, (h.denoteText_eq_some_iff hd).2 ht]
    obtain ⟨decl, slot, t⟩ := a
    subst hdecl
    rfl

theorem ascends_iff (has : (references ds).mapM u.attachment? = some as) (child parent : DeclId) :
    Attachment.Ascends as child parent ↔ Inherits ds child parent := by
  constructor
  · rintro ⟨a, ha, rfl, hslot, hhead⟩
    obtain ⟨d, hd, hdecl, text, htext, ht⟩ := (h.mem_attachments_iff has).1 ha
    refine ⟨d, hd, hdecl, text, ?_, a.type, ht, hhead⟩
    rw [List.mem_append]
    cases hs : a.slot with
    | base => exact Or.inl (hs ▸ htext)
    | interface => exact Or.inr (hs ▸ htext)
    | bound index =>
      rw [hs] at hslot
      cases hslot
  · rintro ⟨d, hd, rfl, text, htext, t, ht, hhead⟩
    rcases List.mem_append.1 htext with htext | htext
    · exact ⟨⟨numberIn ds d, .base, t⟩, (h.mem_attachments_iff has).2 ⟨d, hd, rfl, text, htext, ht⟩,
        rfl, rfl, hhead⟩
    · exact ⟨⟨numberIn ds d, .interface, t⟩,
        (h.mem_attachments_iff has).2 ⟨d, hd, rfl, text, htext, ht⟩, rfl, rfl, hhead⟩

/-- A file is well formed exactly if all that it refers to can be attached. -/
theorem wellFormed_iff :
    WellFormed ds ↔ ∃ as, (references ds).mapM u.attachment? = some as ∧ u.signature.Allows as := by
  constructor
  · intro hwf
    obtain ⟨as, has⟩ : ∃ as, (references ds).mapM u.attachment? = some as := by
      refine exists_mapM_eq_some_iff.2 fun r hr => ?_
      obtain ⟨d, hd, hdecl, htext⟩ := mem_references_iff.1 hr
      obtain ⟨t, ht, -⟩ := hwf.suits d hd r.slot r.text htext
      rw [attachment?, hdecl, (h.denoteText_eq_some_iff hd).2 ht]
      exact ⟨_, rfl⟩
    refine ⟨as, has, fun a ha => ?_, ?_⟩
    · obtain ⟨d, hd, hdecl, text, htext, ht⟩ := (h.mem_attachments_iff has).1 ha
      obtain ⟨t, ht', hsuits⟩ := hwf.suits d hd a.slot text htext
      rw [← h.denoteText_eq_some_iff hd] at ht ht'
      obtain rfl := Option.some.inj (ht'.symm.trans ht)
      have hadmits := (h.admits_iff hd).2 hsuits
      rwa [← hdecl] at hadmits
    · rw [funext₂ fun x y => propext (h.ascends_iff has x y)]
      exact hwf.acyclic
  · rintro ⟨as, has, hallows⟩
    refine ⟨h.nodup, fun d hd slot text htext => ?_, ?_⟩
    · have hr : ⟨numberIn ds d, slot, text⟩ ∈ references ds :=
        mem_references_iff.2 ⟨d, hd, rfl, htext⟩
      obtain ⟨a, ha⟩ := exists_mapM_eq_some_iff.1 ⟨as, has⟩ _ hr
      have hadmits := hallows.1 a ((mem_iff_of_mapM_eq_some has a).2 ⟨_, hr, ha⟩)
      obtain ⟨t, ht, rfl⟩ := Option.map_eq_some_iff.1 ha
      exact ⟨t, (h.denoteText_eq_some_iff hd).1 ht, (h.admits_iff hd).1 hadmits⟩
    · have := hallows.2
      rwa [funext₂ fun x y => propext (h.ascends_iff has x y)] at this

/-- Each place gets the types that the texts of the declaration stand for. -/
theorem attached_presents (has : (references ds).mapM u.attachment? = some as) (hv : u.Presents as v)
    (hd : d ∈ ds) (slot : Slot) :
    ∃ ts, List.Forall₂ (StandsFor ds d) (d.texts slot) ts ∧
      v.signature.attached (numberIn ds d) slot = ts.eraseDups := by
  refine ⟨(as.filter (·.key = (numberIn ds d, slot))).map (·.type), ?_, ?_⟩
  · have hkeys : Relator.LiftFun (fun r a => u.attachment? r = some a) (· ↔ ·)
        (fun r : Reference => decide (r.key = (numberIn ds d, slot)) = true)
        (fun a : Attachment => decide (a.key = (numberIn ds d, slot)) = true) := by
      intro r a ha
      dsimp only
      rw [key_of_attachment?_eq_some ha]
    have hall := List.rel_filter hkeys (forall₂_of_mapM_eq_some has)
    rw [filter_references h.nodup_decls hd] at hall
    rw [← d.texts_references (numberIn ds d), List.forall₂_map_left_iff, List.forall₂_map_right_iff]
    have hdecl : ∀ r ∈ (d.references (numberIn ds d)).filter (·.slot = slot), r.decl = numberIn ds d :=
      fun r hr => Decl.decl_of_mem_references (List.mem_filter.1 hr).1
    refine ((List.forall₂_and_left _ _).2 ⟨hdecl, hall⟩).imp fun r a hra => ?_
    obtain ⟨t, ht, rfl⟩ := Option.map_eq_some_iff.1 hra.2
    rw [hra.1] at ht
    exact (h.denoteText_eq_some_iff hd).1 ht
  · rw [hv.signature]
    refine Signature.attached_foldl_attach (fun decl slot => ?_) ?_ _ _
    · cases slot with
      | base => rw [Signature.attached, h.rootless.declBase, Option.toList_none]
      | interface => exact h.rootless.declInterfaces decl
      | bound index => exact h.bounds_eq_nil decl index
    · rw [map_key_of_mapM_eq_some has]
      exact oneBase_references h.nodup_decls

/-- A definition of the loaded file is what its declaration says. -/
theorem defines (has : (references ds).mapM u.attachment? = some as) (hv : u.Presents as v)
    (hd : d ∈ ds) {d' : Declaration} (hd' : v.catalog.get? (numberIn ds d) = some d') :
    Defines ds v d d' := by
  have halike : d.bare.Alike d' := by
    have hrel := hv.speaks.alike (numberIn ds d)
    rw [h.get?_numberIn hd, id, hd'] at hrel
    cases hrel with
    | some halike => exact halike
  refine ⟨halike.kind, halike.name, ?_, fun slot => ?_⟩
  · rw [halike.parameters]
    simp [Decl.bare, Declaration.bare, Function.comp_def]
  · obtain ⟨ts, hts, hattached⟩ := h.attached_presents has hv hd slot
    rw [attached_signature hd'] at hattached
    exact ⟨ts, hts, forall₂_reads_iff.2
      ⟨fun ty hty => hv.valid.consistent.contains_of_mem_attached hd' hty, hattached⟩⟩

end Enrolled

/-! ## Loading -/

/-- The definitions of a loaded file are what its declarations say, one by one. -/
theorem Loaded.defines (h : Loaded ds v) :
    List.Forall₂ (Defines ds v) ds v.catalog.entries.toList := by
  obtain ⟨u, tys, as, hu, has, hv⟩ := h
  have hsize : v.catalog.entries.toList.length = ds.length := by
    have hsame : v.ownTypes.size = u.ownTypes.size := congrArg Array.size hv.ownTypes
    rw [hv.valid.aligned, hu.valid.aligned, Catalog.size, Catalog.size, ← Array.length_toList,
      ← Array.length_toList, hu.entries, List.length_map] at hsame
    exact hsame
  refine List.forall₂_iff_get.2 ⟨hsize.symm, fun n hn hn' => ?_⟩
  refine hu.defines has hv (List.get_mem _ _) ?_
  rw [List.get_eq_getElem, numberIn_getElem hu.nodup_decls hn]
  exact Array.getElem?_eq_getElem (by simpa using hn')

/-- A file is loaded exactly if it is well formed, and gives what it says. -/
theorem build_exact (m : Manifest) :
    (m.build.onFresh.1 = .ok () ↔ WellFormed m.decls) ∧
    (m.build.onFresh.1 = .ok () →
      List.Forall₂ (Defines m.decls m.build.onFresh.2.univ) m.decls
        m.build.onFresh.2.univ.catalog.entries.toList) := by
  rcases build_hinges m Chronicle.fresh.journal with ⟨_, hok, hloaded⟩ | ⟨⟨e, herror⟩, hnot⟩
  · refine ⟨⟨fun _ => ?_, fun _ => hok⟩, fun _ => hloaded.defines⟩
    obtain ⟨u, tys, as, hu, has, hv⟩ := hloaded
    exact hu.wellFormed_iff.2 ⟨as, has, hv.allows⟩
  · have hfails : m.build.onFresh.1 ≠ .ok () := by
      intro hok
      cases hok.symm.trans herror
    refine ⟨⟨fun hok => absurd hok hfails, fun hwf => absurd ?_ hnot⟩, fun hok => absurd hok hfails⟩
    exact ⟨hwf.names, fun u tys hu => hu.wellFormed_iff.1 hwf⟩

/-- Supertypes that are declared later, some listed twice, and a parameter that hides a struct. -/
def shadowed : Manifest where
  decls := [
    { name := "Cell", kind := .classKind, params := [.bounded "Item" ["Tagged<Item>", "Tagged< Item >"]],
      base := some "Root", interfaces := ["Tagged<Item>", "Tagged<Root>", "Tagged<Item>"] },
    { name := "Item", kind := .structKind, interfaces := ["Tagged<Item>"] },
    { name := "Root", kind := .structKind },
    { name := "Tagged", kind := .interfaceKind, params := [.plain "T"] }]

/-- The file is loaded. The class is tagged with its parameter, the struct with itself. -/
theorem build_exact_shadowed :
    let u := shadowed.build.onFresh.2.univ
    shadowed.build.onFresh.1 = .ok () ∧ WellFormed shadowed.decls ∧
      List.Forall₂ (Defines shadowed.decls u) shadowed.decls u.catalog.entries.toList ∧
      u.catalog.entries.toList.map (fun d => d.interfaces.map u.typeAt) =
        [[.applied ⟨4⟩ [.param ⟨1⟩ 0], .applied ⟨4⟩ [.plain ⟨3⟩]], [.applied ⟨4⟩ [.plain ⟨2⟩]], [],
          []] := by
  have hok : shadowed.build.onFresh.1 = .ok () := by cbv
  obtain ⟨hiff, hdefines⟩ := build_exact shadowed
  exact ⟨hok, hiff.1 hok, hdefines hok, by cbv⟩

end Manifest

end Subtyping
