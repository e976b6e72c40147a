import Subtyping.Proofs.Instantiation
import Subtyping.Proofs.InterfaceOrder

/-!
# Supertypes and arguments

Going up commutes with putting arguments for parameters. The base of a type is that of its declaration
with the arguments of the type put in, so putting others into the type and then going up puts them in
before, and going up first puts them in after (`Signature.Scoped.baseOf_instantiate`,
`Signature.Scoped.declaredBy_instantiate`). This takes types that are no parameters, and nothing that is
nested more deeply than replacing goes (`Signature.ShallowAt`).

From the steps it follows for base chains (`Signature.Scoped.chainFrom_instantiate`) and for interfaces.
Interfaces that differ may become the same, so of these the first stays
(`Signature.Scoped.closureOf_instantiate`): the unfolding of what is declared is mapped as a whole, and
leaving out repetitions before and after comes to leaving them out after.
-/

namespace Subtyping

/-! ## Mapping an unfolding -/

section Mapping

variable {α β : Type}

/-- Repetitions that are left out before a function is applied would be left out after it. -/
theorem eraseDups_map_eraseDups [DecidableEq α] [DecidableEq β] (f : α → β) (l : List α) :
    (l.eraseDups.map f).eraseDups = (l.map f).eraseDups := by
  induction l using List.reverseRecOn with
  | nil => rfl
  | append_singleton l a ih =>
    rw [List.map_append, List.map_singleton]
    by_cases ha : a ∈ l
    · have hfa : [f a] ⊆ l.map f := by simpa using ⟨a, ha, rfl⟩
      rw [eraseDups_append_of_subset (by simpa using ha), eraseDups_append_of_subset hfa, ih]
    · have hmem : ∀ b, b ∈ l.eraseDups.map f ↔ b ∈ l.map f := by simp
      rw [eraseDups_append_singleton ha, List.map_append, List.map_singleton]
      by_cases hfa : f a ∈ l.map f
      · rw [eraseDups_append_of_subset (by simpa using (hmem _).2 hfa),
          eraseDups_append_of_subset (by simpa using hfa), ih]
      · rw [eraseDups_append_singleton fun h => hfa ((hmem _).1 h), eraseDups_append_singleton hfa, ih]

namespace Unfolds

variable {declared : α → List α} {l all : List α}

/-- What holds of a list and is kept by going up holds of the unfolding. -/
theorem forall_mem {P : α → Prop} (h : Unfolds declared l all) (hl : ∀ x ∈ l, P x)
    (hP : ∀ x y, P x → y ∈ declared x → P y) : ∀ x ∈ all, P x := by
  induction h with
  | nil => exact hl
  | @cons i rest below after _ _ ih ih' =>
    obtain ⟨hi, hrest⟩ := List.forall_mem_cons.1 hl
    exact List.forall_mem_cons.2 ⟨hi, List.forall_mem_append.2 ⟨ih fun y => hP i y hi, ih' hrest⟩⟩

/-- An unfolding is mapped as a whole by a function that maps what each member declares. -/
theorem map {declared' : β → List β} {f : α → β} (h : Unfolds declared l all)
    (hf : ∀ x ∈ all, declared' (f x) = (declared x).map f) :
    Unfolds declared' (l.map f) (all.map f) := by
  induction h with
  | nil => exact .nil
  | @cons i rest below after _ _ ih ih' =>
    obtain ⟨hi, hrest⟩ := List.forall_mem_cons.1 hf
    obtain ⟨hbelow, hafter⟩ := List.forall_mem_append.1 hrest
    have hfirst := ih hbelow
    rw [← hi] at hfirst
    rw [List.map_cons, List.map_cons, List.map_append]
    exact .cons hfirst (ih' hafter)

end Unfolds

end Mapping

/-! ## Types with all their arguments -/

/-- A type that is no parameter and has all its arguments. -/
def Ty.Saturated (arity : DeclId → Nat) : Ty → Prop
  | .plain decl => arity decl = 0
  | .applied decl args => args.length = arity decl
  | .param _ _ => False

namespace Ty.Formed

variable {S : Signature} {arity : DeclId → Nat} {p : DeclId → Prop} {owner : DeclId} {t : Ty}

theorem saturated (ht : t.Formed S arity p) (hparam : t.isParam = false) : t.Saturated arity := by
  cases ht with
  | plain h => exact h
  | applied _ hlen => exact hlen
  | param => cases hparam

theorem saturated_fill (ht : t.Formed S arity p) (hparam : t.isParam = false) (args : List Ty)
    (levels : Nat) : (t.fill owner args levels).Saturated arity := by
  cases ht with
  | plain h =>
    rw [fill_plain]
    exact h
  | applied _ hlen =>
    cases levels with
    | zero => exact hlen
    | succ levels =>
      rw [fill_applied_succ]
      exact (List.length_map _).trans hlen
  | param => cases hparam

/-- Where no owner has parameters, there is nothing to replace. -/
theorem fill_eq_self (ht : t.Formed S arity p) (hp : ∀ o, p o → arity o = 0) (args : List Ty)
    (levels : Nat) : t.fill owner args levels = t := by
  induction ht generalizing levels with
  | plain => exact fill_plain _
  | @applied decl ts _ _ _ ih =>
    cases levels with
    | zero => rfl
    | succ levels =>
      rw [fill_applied_succ, List.map_congr_left fun t ht => ih t ht levels, List.map_id']
  | @param o i ho hi => exact absurd (hp o ho ▸ hi) (Nat.not_lt_zero i)

/-- A supertype that is listed with parameters, of which the arguments stand for all: others may be put
into the result, or into the arguments before. -/
theorem instantiate_instantiate {ts args : List Ty} {decl : DeclId} (ht : t.Formed S arity (· = decl))
    (hlen : ts.length = arity decl) (hts : (Ty.applied decl ts).nesting ≤ Limits.instantiation.depth)
    (hnest : t.nesting ≤ Limits.instantiation.depth)
    (hresult : (t.instantiate decl ts).nesting ≤ Limits.instantiation.depth) :
    (t.instantiate decl ts).instantiate owner args =
      t.instantiate decl (ts.map (·.fill owner args (Limits.instantiation.depth - 1))) := by
  refine ht.fill_fill hlen.ge hnest (fun f hf => ?_) hresult
  have hle := nesting_le_of_mem hf
  rw [Ty.nesting] at hts
  omega

end Ty.Formed

theorem Ty.instantiate_applied (decl owner : DeclId) (ts args : List Ty) :
    (applied decl ts).instantiate owner args =
      applied decl (ts.map (·.fill owner args (Limits.instantiation.depth - 1))) :=
  rfl

namespace Signature

variable {S : Signature} {arity : DeclId → Nat} {owner : DeclId} {args : List Ty} {t a b : Ty}

/-- A type, and the supertypes that its declaration lists, nest no more applications than replacing
goes through. -/
def ShallowAt (S : Signature) (t : Ty) : Prop :=
  t.nesting ≤ Limits.instantiation.depth ∧ ∀ decl ∈ t.head?,
    (∀ b ∈ S.declBase decl, b.nesting ≤ Limits.instantiation.depth) ∧
      ∀ i ∈ S.declInterfaces decl, i.nesting ≤ Limits.instantiation.depth

instance (S : Signature) (t : Ty) : Decidable (S.ShallowAt t) :=
  inferInstanceAs (Decidable (_ ∧ ∀ decl ∈ t.head?, (∀ b ∈ S.declBase decl, _) ∧
    ∀ i ∈ S.declInterfaces decl, _))

theorem chainFrom_succ (steps : Nat) (t : Ty) :
    S.chainFrom (steps + 1) t = t :: (S.baseOf t).elim [] (S.chainFrom steps) := by
  rw [chainFrom]
  cases S.baseOf t <;> rfl

namespace Scoped

variable (hS : S.Scoped arity)
include hS

theorem saturated_of_baseOf (ht : t.Saturated arity) (hb : S.baseOf t = some b) :
    b.Saturated arity := by
  cases t with
  | plain decl =>
    obtain ⟨hformed, hparam⟩ := hS.base hb
    exact hformed.saturated hparam
  | applied decl args =>
    obtain ⟨base, hbase, rfl⟩ := Option.map_eq_some_iff.1 hb
    obtain ⟨hformed, hparam⟩ := hS.base hbase
    exact hformed.saturated_fill hparam args _
  | param owner index => cases ht

theorem saturated_of_mem_declaredBy (ht : t.Saturated arity) (hi : b ∈ S.declaredBy t) :
    b.Saturated arity := by
  cases t with
  | plain decl =>
    obtain ⟨hformed, hparam⟩ := hS.interfaces hi
    exact hformed.saturated hparam
  | applied decl args =>
    obtain ⟨interface, hmem, rfl⟩ := List.mem_map.1 hi
    obtain ⟨hformed, hparam⟩ := hS.interfaces hmem
    exact hformed.saturated_fill hparam args _
  | param owner index => cases ht

/-! ## One step up -/

theorem baseOf_instantiate (ht : t.Saturated arity) (hlow : S.ShallowAt t)
    (hb : ∀ b ∈ S.baseOf t, b.nesting ≤ Limits.instantiation.depth) :
    S.baseOf (t.instantiate owner args) = (S.baseOf t).map (·.instantiate owner args) := by
  cases t with
  | plain decl =>
    rw [Ty.instantiate, Ty.fill_plain, baseOf]
    cases hbase : S.declBase decl with
    | none => rfl
    | some base => exact congrArg some ((hS.base hbase).1.fill_eq_self (fun o ho => ho ▸ ht) args _).symm
  | applied decl ts =>
    rw [Ty.instantiate_applied, baseOf, baseOf]
    cases hbase : S.declBase decl with
    | none => rfl
    | some base =>
      have hresult : (base.instantiate decl ts).nesting ≤ Limits.instantiation.depth :=
        hb _ (by rw [baseOf, hbase]; rfl)
      exact congrArg some ((hS.base hbase).1.instantiate_instantiate ht hlow.1
        ((hlow.2 decl rfl).1 base hbase) hresult).symm
  | param o i => cases ht

theorem declaredBy_instantiate (ht : t.Saturated arity) (hlow : S.ShallowAt t)
    (hi : ∀ i ∈ S.declaredBy t, i.nesting ≤ Limits.instantiation.depth) :
    S.declaredBy (t.instantiate owner args) = (S.declaredBy t).map (·.instantiate owner args) := by
  cases t with
  | plain decl =>
    have hclosed : ∀ i ∈ S.declInterfaces decl, i.instantiate owner args = i := fun i hmem =>
      (hS.interfaces hmem).1.fill_eq_self (fun o ho => ho ▸ ht) args _
    rw [Ty.instantiate, Ty.fill_plain, declaredBy, List.map_congr_left hclosed, List.map_id']
  | applied decl ts =>
    rw [Ty.instantiate_applied, declaredBy, declaredBy, List.map_map]
    refine List.map_congr_left fun i hmem => ?_
    have hresult : (i.instantiate decl ts).nesting ≤ Limits.instantiation.depth :=
      hi _ (List.mem_map_of_mem hmem)
    exact ((hS.interfaces hmem).1.instantiate_instantiate ht hlow.1
      ((hlow.2 decl rfl).2 i hmem) hresult).symm
  | param o i => cases ht

/-! ## All the way up -/

/-- The base chain of a type with arguments put in is the base chain with the arguments put in. -/
theorem chainFrom_instantiate {steps : Nat} (ht : t.Saturated arity)
    (hlow : ∀ x ∈ S.chainFrom steps t, S.ShallowAt x) :
    S.chainFrom steps (t.instantiate owner args) =
      (S.chainFrom steps t).map (·.instantiate owner args) := by
  induction steps generalizing t with
  | zero => rfl
  | succ steps ih =>
    rw [chainFrom_succ] at hlow ⊢
    rw [chainFrom_succ, List.map_cons]
    obtain ⟨hself, hrest⟩ := List.forall_mem_cons.1 hlow
    congr 1
    cases steps with
    | zero => cases S.baseOf t <;> cases S.baseOf (t.instantiate owner args) <;> rfl
    | succ steps =>
      rw [hS.baseOf_instantiate ht hself fun b hb => by
        rw [Option.mem_def.1 hb] at hrest
        exact (hrest b (mem_chainFrom_self steps b)).1]
      cases hb : S.baseOf t with
      | none => rfl
      | some b =>
        rw [hb] at hrest
        exact ih (hS.saturated_of_baseOf ht hb) hrest

theorem saturated_of_mem_chainFrom {steps : Nat} (ht : t.Saturated arity) :
    ∀ x ∈ S.chainFrom steps t, x.Saturated arity :=
  forall_mem_chainFrom (fun _ _ => hS.saturated_of_baseOf) ht

/-- What a type declares, unfolded, with arguments put in. -/
theorem unfolds_instantiate {part : List Ty} (ht : t.Saturated arity) (hlow : S.ShallowAt t)
    (hpart : Unfolds S.declaredBy (S.declaredBy t) part) (hlows : ∀ x ∈ part, S.ShallowAt x) :
    Unfolds S.declaredBy (S.declaredBy (t.instantiate owner args))
      (part.map (·.instantiate owner args)) := by
  have hsat := hpart.forall_mem (fun i hi => hS.saturated_of_mem_declaredBy ht hi)
    fun x y hx hy => hS.saturated_of_mem_declaredBy hx hy
  rw [hS.declaredBy_instantiate ht hlow fun i hi => (hlows i (hpart.subset hi)).1]
  refine hpart.map fun x hx => hS.declaredBy_instantiate (hsat x hx) (hlows x hx) fun i hi => ?_
  exact (hlows i (hpart.declared_subset x hx hi)).1

theorem forall₂_unfolds_instantiate {ancestors : List Ty} {parts : List (List Ty)}
    (h : List.Forall₂ (fun t part => Unfolds S.declaredBy (S.declaredBy t) part) ancestors parts)
    (hsat : ∀ t ∈ ancestors, t.Saturated arity) (hlow : ∀ t ∈ ancestors, S.ShallowAt t)
    (hlows : ∀ x ∈ parts.flatten, S.ShallowAt x) :
    List.Forall₂ (fun t part => Unfolds S.declaredBy (S.declaredBy t) part)
      (ancestors.map (·.instantiate owner args)) (parts.map (·.map (·.instantiate owner args))) := by
  induction h with
  | nil => exact .nil
  | cons hpart _ ih =>
    obtain ⟨ht, hsat⟩ := List.forall_mem_cons.1 hsat
    obtain ⟨hlow, hlow'⟩ := List.forall_mem_cons.1 hlow
    rw [List.flatten_cons] at hlows
    obtain ⟨hfirst, hrest⟩ := List.forall_mem_append.1 hlows
    exact .cons (hS.unfolds_instantiate ht hlow hpart hfirst) (ih hsat hlow' hrest)

section Descending

variable {height : Ty → Nat} (hdesc : ∀ t, ∀ i ∈ S.declaredBy t, height i < height t)
  (hsize : ∀ t, ∀ i ∈ S.declaredBy t, height i < S.size)
include hdesc hsize

/-- The interfaces of a type with arguments put in are its interfaces with the arguments put in, of
which the first occurrences stay. -/
theorem closureOf_instantiate (ht : t.Saturated arity) (hchain : ∀ x ∈ S.chain t, S.ShallowAt x)
    (hclosure : ∀ x ∈ S.closureOf t, S.ShallowAt x) :
    S.closureOf (t.instantiate owner args) =
      ((S.closureOf t).map (·.instantiate owner args)).eraseDups := by
  obtain ⟨parts, hparts, heq⟩ := exists_closureOf_eq hdesc hsize t
  obtain ⟨parts', hparts', heq'⟩ := exists_closureOf_eq hdesc hsize (t.instantiate owner args)
  rw [chain, hS.chainFrom_instantiate ht hchain, ← List.map_reverse] at hparts'
  have hsame : parts' = parts.map (·.map (·.instantiate owner args)) := by
    refine Relator.RightUnique.forall₂ ?_ hparts' (hS.forall₂_unfolds_instantiate hparts
      (fun x hx => hS.saturated_of_mem_chainFrom ht x (List.mem_reverse.1 hx))
      (fun x hx => hchain x (List.mem_reverse.1 hx))
      (fun x hx => hclosure x (by rwa [heq, List.mem_eraseDups])))
    exact fun _ _ _ => Unfolds.unique
  rw [heq', hsame, heq, eraseDups_map_eraseDups, List.map_flatten]

/-- Assignability is kept. -/
theorem isAssignable_instantiate (ha : a.Saturated arity) (hchain : ∀ x ∈ S.chain a, S.ShallowAt x)
    (hclosure : ∀ x ∈ S.closureOf a, S.ShallowAt x) (h : S.isAssignable a b) :
    S.isAssignable (a.instantiate owner args) (b.instantiate owner args) := by
  rw [isAssignable, Bool.or_eq_true, beq_iff_eq] at h ⊢
  rcases h with rfl | h
  · exact Or.inl rfl
  right
  cases hk : S.kindOf? b with
  | none => rw [hk] at h; cases h
  | some k =>
    have hkind : S.kindOf? (b.instantiate owner args) = some k := by
      obtain ⟨decl, hhead, -⟩ := Option.bind_eq_some_iff.1 hk
      rw [kindOf?_of_head?_eq ((Ty.head?_instantiate hhead owner args).trans hhead.symm), hk]
    have hmem : ∀ l : List Ty, b ∈ l →
        b.instantiate owner args ∈ l.map (·.instantiate owner args) := fun l hl =>
      List.mem_map_of_mem hl
    rw [hkind]
    rw [hk] at h
    cases k with
    | interfaceKind =>
      rw [List.contains_iff_mem] at h ⊢
      rw [hS.closureOf_instantiate hdesc hsize ha hchain hclosure, List.mem_eraseDups]
      exact hmem _ h
    | classKind | structKind =>
      rw [List.contains_iff_mem] at h ⊢
      rw [chain, hS.chainFrom_instantiate ha hchain]
      exact hmem _ h

end Descending

end Scoped

end Signature

namespace Universe

variable {u v : Universe} {ty : Handle} {t : Ty} {l : List Handle} {ts : List Ty}

/-- A type, and the supertypes that its declaration lists, nest no more applications than replacing
goes through. -/
def ShallowAt (u : Universe) (ty : Handle) : Prop :=
  u.signature.ShallowAt (u.typeAt ty)

instance (u : Universe) (ty : Handle) : Decidable (u.ShallowAt ty) :=
  inferInstanceAs (Decidable (u.signature.ShallowAt (u.typeAt ty)))

theorem forall_shallowAt_of_reads (h : List.Forall₂ u.Reads l ts) (hl : ∀ ty ∈ l, u.ShallowAt ty) :
    ∀ t ∈ ts, u.signature.ShallowAt t := by
  obtain ⟨-, rfl⟩ := forall₂_reads_iff.1 h
  exact List.forall_mem_map.2 hl

theorem Consistent.saturated_of_reads (hu : u.Consistent) (h : u.Reads ty t)
    (hparam : u.isParameter ty = false) : t.Saturated u.arity := by
  cases t with
  | plain decl =>
    obtain ⟨d, hd, harity⟩ := hu.fits (hu.shape?_of_reads_plain h)
    exact (arity_of_get? hd).trans harity
  | applied decl ts =>
    obtain ⟨d, hd, hlen, -⟩ := hu.exists_catalog_of_reads h
    exact ((arity_of_get? hd).trans hlen).symm
  | param owner index =>
    rw [hu.isParameter_of_reads h] at hparam
    cases hparam

end Universe

namespace UniverseM

open Universe

variable {c : Chronicle} {ty : Handle} {args : List Handle}

theorem baseChain_eq_of_reads {t : Ty} {l : List Handle} (hu : c.univ.Consistent)
    (ht : c.univ.Reads ty t) (hl : List.Forall₂ c.univ.Reads l (c.univ.signature.chain t)) :
    (baseChain ty c).1 = l := by
  obtain ⟨hg, hchain⟩ := baseChain_ensures hu ht c.journal
  exact hg.after.forall₂_reads_injective hchain (hg.forall₂_reads hl)

theorem interfaces_eq_of_reads {t : Ty} {l : List Handle} (hu : c.univ.Consistent)
    (ht : c.univ.Reads ty t) (hl : List.Forall₂ c.univ.Reads l (c.univ.signature.closureOf t)) :
    (interfaces ty c).1 = l := by
  obtain ⟨hg, hclosure⟩ := interfaces_ensures hu ht c.journal
  exact hg.after.forall₂_reads_injective hclosure (hg.forall₂_reads hl)

/-- Handles follow trees: what is true of the supertypes of a tree with arguments put in comes out when
they are asked for, after the arguments were put into those of the tree. -/
theorem supertypes_eq_of_reads {t : Ty} {trees : List Ty} {l l' : List Handle} (owner : DeclId)
    (hu : c.univ.Consistent) (ht : c.univ.Reads ty t) (hargs : List.Forall₂ c.univ.Reads args trees)
    (hl : List.Forall₂ c.univ.Reads l (c.univ.signature.chain t))
    (hl' : List.Forall₂ c.univ.Reads l' (c.univ.signature.closureOf t))
    (hchain : c.univ.signature.chain (t.instantiate owner trees) =
      (c.univ.signature.chain t).map (·.instantiate owner trees))
    (hclosure : c.univ.signature.closureOf (t.instantiate owner trees) =
      ((c.univ.signature.closureOf t).map (·.instantiate owner trees)).eraseDups) :
    let chain' := l.mapM (instantiate · owner args) c
    let closure' := l'.mapM (instantiate · owner args) chain'.2
    let r := instantiate ty owner args closure'.2
    let chain'' := baseChain r.1 r.2
    chain''.1 = chain'.1 ∧ (interfaces r.1 chain''.2).1 = closure'.1.eraseDups := by
  intro chain' closure' r chain''
  obtain ⟨hg₁, hchain'⟩ := reads_mapM_instantiate hu hargs owner hl
  obtain ⟨hg₂, hclosure'⟩ := reads_mapM_instantiate hg₁.after (hg₁.forall₂_reads hargs) owner
    (hg₁.forall₂_reads hl')
  have hbefore := hg₁.trans hg₂
  obtain ⟨hg₃, hr⟩ := reads_instantiate hg₂.after (hbefore.forall₂_reads hargs) owner
    (hbefore.reads ht)
  obtain ⟨hg₄, -⟩ := baseChain_ensures hg₃.after hr r.2.journal
  have hsig := (hbefore.trans hg₃).signature
  constructor
  · refine baseChain_eq_of_reads hg₃.after hr ?_
    rw [hsig, hchain]
    exact (hg₂.trans hg₃).forall₂_reads hchain'
  · refine interfaces_eq_of_reads hg₄.after (hg₄.reads hr) ?_
    rw [hg₄.signature, hsig, hclosure]
    exact hg₄.after.forall₂_reads_eraseDups ((hg₃.trans hg₄).forall₂_reads hclosure')

/-- So they do for assignability. -/
theorem isAssignable_instantiate_of_reads {target : Handle} {t s : Ty} {trees : List Ty} (owner : DeclId)
    (hu : c.univ.Consistent) (ht : c.univ.Reads ty t) (hs : c.univ.Reads target s)
    (hargs : List.Forall₂ c.univ.Reads args trees)
    (h : c.univ.signature.isAssignable t s →
      c.univ.signature.isAssignable (t.instantiate owner trees) (s.instantiate owner trees))
    (hassign : (isAssignable ty target c).1) :
    let a := instantiate ty owner args c
    let b := instantiate target owner args a.2
    (isAssignable a.1 b.1 b.2).1 := by
  intro a b
  obtain ⟨-, hanswer⟩ := isAssignable_ensures hu ht hs c.journal
  obtain ⟨hg, ha⟩ := reads_instantiate hu hargs owner ht
  obtain ⟨hg', hb⟩ := reads_instantiate hg.after (hg.forall₂_reads hargs) owner (hg.reads hs)
  obtain ⟨-, hanswer'⟩ := isAssignable_ensures hg'.after (hg'.reads ha) hb b.2.journal
  rw [hg'.signature, hg.signature] at hanswer'
  exact hanswer'.trans (h (hanswer.symm.trans hassign))

/-- For a type that is no parameter, where nothing that is met on the way up is nested more deeply than
replacing goes: its base chain with arguments put in is the base chain of the type with the arguments put
in, and so it is with the interfaces, of which the first occurrences stay. What the type is assignable to,
with the arguments put in, the type with the arguments put in is assignable to. -/
theorem supertypes_instantiate (hc : c.univ.Built) (hty : c.univ.contains ty)
    (hparam : c.univ.isParameter ty = false) (owner : DeclId)
    (hargs : ∀ a ∈ args, c.univ.contains a) :
    let chain := baseChain ty c
    let closure := interfaces ty chain.2
    (∀ x ∈ chain.1 ++ closure.1, closure.2.univ.ShallowAt x) →
      let chain' := chain.1.mapM (instantiate · owner args) closure.2
      let closure' := closure.1.mapM (instantiate · owner args) chain'.2
      let r := instantiate ty owner args closure'.2
      let chain'' := baseChain r.1 r.2
      chain''.1 = chain'.1 ∧ (interfaces r.1 chain''.2).1 = closure'.1.eraseDups ∧
      ∀ target, c.univ.contains target → (isAssignable ty target c).1 →
        let a := instantiate ty owner args c
        let b := instantiate target owner args a.2
        (isAssignable a.1 b.1 b.2).1 := by
  intro chain closure hlow chain' closure' r chain''
  have hu := hc.valid.consistent
  have hS := hc.scoped
  have ht := reads_typeAt hty
  have htrees := forall₂_reads_map hargs
  have hsat := hu.saturated_of_reads ht hparam
  have hdesc : ∀ t, ∀ i ∈ c.univ.signature.declaredBy t, c.univ.height i < c.univ.height t :=
    fun t i hi => hu.height_lt_of_above hc.wellKinded (Or.inr hi)
  have hsize : ∀ t, ∀ i ∈ c.univ.signature.declaredBy t, c.univ.height i < c.univ.signature.size :=
    fun t i hi => hu.height_lt_size (hc.wellKinded.isSome_kindOf?_of_above (Or.inr hi))
  obtain ⟨hg₁, hchain⟩ := baseChain_ensures hu ht c.journal
  obtain ⟨hg₂, hclosure⟩ := interfaces_ensures hg₁.after (hg₁.reads ht) chain.2.journal
  have hbefore := hg₁.trans hg₂
  have hchain := hg₂.forall₂_reads hchain
  rw [hg₁.signature] at hclosure
  obtain ⟨hchainLow, hclosureLow⟩ :
      (∀ x ∈ c.univ.signature.chain (c.univ.typeAt ty), c.univ.signature.ShallowAt x) ∧
        ∀ x ∈ c.univ.signature.closureOf (c.univ.typeAt ty), c.univ.signature.ShallowAt x := by
    rw [← List.forall_mem_append, ← hbefore.signature]
    rw [← hbefore.signature] at hchain hclosure
    exact forall_shallowAt_of_reads (List.rel_append hchain hclosure) hlow
  have hlists := supertypes_eq_of_reads owner hg₂.after (hbefore.reads ht)
    (hbefore.forall₂_reads htrees) (by rwa [hbefore.signature]) (by rwa [hbefore.signature])
    (by rw [hbefore.signature]; exact hS.chainFrom_instantiate hsat hchainLow)
    (by rw [hbefore.signature]; exact hS.closureOf_instantiate hdesc hsize hsat hchainLow hclosureLow)
  refine ⟨hlists.1, hlists.2, fun target htarget => ?_⟩
  exact isAssignable_instantiate_of_reads owner hu ht (reads_typeAt htarget) htrees
    (hS.isAssignable_instantiate hdesc hsize hsat hchainLow hclosureLow)

/-- An interface `I<S>`, a class `B<R>`, and a class `C<T, U>` with the base `B<T>` that lists `I<T>` and
`I<U>`. The last types are `T`, `U`, `C<T, U>`, `I<T>`, `I<U>` and `B<T>`, in this order. -/
def merging : Chronicle :=
  Operation.runAll
    [.declare (.bare .interfaceKind "I" ["S"]), .declare (.bare .classKind "B" ["R"]),
      .declare (.bare .classKind "C" ["T", "U"]), .apply ⟨2⟩ [⟨5⟩], .apply ⟨2⟩ [⟨6⟩],
      .apply ⟨4⟩ [⟨5⟩], .setBase ⟨7⟩ ⟨10⟩, .addInterface ⟨7⟩ ⟨8⟩, .addInterface ⟨7⟩ ⟨9⟩] .fresh

theorem built_merging : merging.univ.Built :=
  Operation.built_runAll .empty (by cbv)

/-- With `T` put for both parameters, the interfaces `I<T>` and `I<U>` of `C<T, U>` become the same, and
`C<T, T>` has just the one. -/
theorem supertypes_instantiate_merging :
    let chain := baseChain ⟨7⟩ merging
    let closure := interfaces ⟨7⟩ chain.2
    let chain' := chain.1.mapM (instantiate · ⟨3⟩ [⟨5⟩, ⟨5⟩]) closure.2
    let closure' := closure.1.mapM (instantiate · ⟨3⟩ [⟨5⟩, ⟨5⟩]) chain'.2
    let r := instantiate ⟨7⟩ ⟨3⟩ [⟨5⟩, ⟨5⟩] closure'.2
    let chain'' := baseChain r.1 r.2
    chain.1 ++ closure.1 = [⟨7⟩, ⟨10⟩, ⟨8⟩, ⟨9⟩] ∧ closure'.1 = [⟨8⟩, ⟨8⟩] ∧
      chain''.1 = chain'.1 ∧ (interfaces r.1 chain''.2).1 = [⟨8⟩] := by
  have hknown : ∀ a ∈ [(⟨5⟩ : Handle), ⟨7⟩], merging.univ.contains a := List.all_eq_true.1 (by cbv)
  have hlists : (baseChain ⟨7⟩ merging).1 ++ (interfaces ⟨7⟩ (baseChain ⟨7⟩ merging).2).1 =
    [⟨7⟩, ⟨10⟩, ⟨8⟩, ⟨9⟩] := by cbv
  have hlow : ([⟨7⟩, ⟨10⟩, ⟨8⟩, ⟨9⟩] : List Handle).all fun x =>
      (interfaces ⟨7⟩ (baseChain ⟨7⟩ merging).2).2.univ.ShallowAt x := by cbv
  have hargs : ∀ a ∈ [(⟨5⟩ : Handle), ⟨5⟩], merging.univ.contains a := by
    simpa using hknown ⟨5⟩ (by decide)
  obtain ⟨hchain, hclosure, -⟩ := supertypes_instantiate built_merging (hknown ⟨7⟩ (by decide))
    (by cbv) ⟨3⟩ hargs fun x hx => by
      rw [hlists] at hx
      exact of_decide_eq_true (List.all_eq_true.1 hlow x hx)
  exact ⟨hlists, by cbv, hchain, hclosure.trans (by cbv)⟩

end UniverseM

end Subtyping
