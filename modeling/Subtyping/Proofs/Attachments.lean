import Subtyping.Proofs.Inheritance

/-!
# Types attached to declarations

A type is attached to a declaration as its base, as one of its interfaces or as a bound of one of its
parameters. An `Attachment` says what is attached where, and `Signature.attach` what a signature says
after that. Attachments to different declarations can change places (`Signature.foldl_attach_perm`).
Which declarations inherit from which is a matter of the attachments that there are, whatever their
order (`Signature.parent_foldl_attach_iff`).

A signature may speak of the same declarations under other numbers (`Signature.Renames`). Attaching the
same types keeps it that way (`Signature.Renames.foldl_attach`), and what is allowed under the new
numbers is allowed under the old ones (`Signature.Renames.allows`).
-/

namespace Subtyping

open Relation

/-! ## Trees with other numbers -/

namespace Ty

variable {g : DeclId → DeclId} {s t : Ty}

mutual

/-- A tree with other numbers for the declarations. -/
def rename (g : DeclId → DeclId) : Ty → Ty
  | plain decl => plain (g decl)
  | applied decl args => applied (g decl) (renameAll g args)
  | param owner index => param (g owner) index

def renameAll (g : DeclId → DeclId) : List Ty → List Ty
  | [] => []
  | t :: ts => t.rename g :: renameAll g ts

end

theorem renameAll_eq_map (g : DeclId → DeclId) (ts : List Ty) :
    renameAll g ts = ts.map (rename g) := by
  induction ts with
  | nil => rfl
  | cons t ts ih => rw [renameAll, ih, List.map_cons]

theorem rename_applied (g : DeclId → DeclId) (decl : DeclId) (args : List Ty) :
    (applied decl args).rename g = applied (g decl) (args.map (rename g)) := by
  rw [rename, renameAll_eq_map]

theorem rename_id (t : Ty) : t.rename id = t := by
  induction t with
  | plain decl => rfl
  | param owner index => rfl
  | applied decl args ih => rw [rename_applied, List.map_congr_left ih, List.map_id', id]

theorem rename_injective (hg : g.Injective) : (rename g).Injective := by
  intro s
  induction s with
  | plain decl =>
    intro t h
    cases t <;> simp_all [rename, hg.eq_iff]
  | param owner index =>
    intro t h
    cases t <;> simp_all [rename, hg.eq_iff]
  | applied decl args ih =>
    intro t h
    cases t with
    | plain d => simp [rename] at h
    | param o i => simp [rename] at h
    | applied d args' =>
      rw [rename_applied, rename_applied, applied.injEq, hg.eq_iff] at h
      obtain ⟨rfl, hargs⟩ := h
      have hlen : args.length = args'.length := by simpa using congrArg List.length hargs
      refine congrArg _ (List.ext_getElem hlen fun i hi hi' => ?_)
      refine ih _ (List.getElem_mem hi) ?_
      simpa [hi, hi'] using congrArg (·[i]?) hargs

theorem head?_rename (g : DeclId → DeclId) (t : Ty) : (t.rename g).head? = t.head?.map g := by
  cases t <;> rfl

theorem isGeneric_rename (g : DeclId → DeclId) (t : Ty) : (t.rename g).isGeneric = t.isGeneric := by
  cases t <;> rfl

theorem args_rename (g : DeclId → DeclId) (t : Ty) : (t.rename g).args = t.args.map (rename g) := by
  cases t with
  | applied decl args => rw [rename_applied]; rfl
  | _ => rfl

theorem rename_own (g : DeclId → DeclId) (decl : DeclId) (arity : Nat) :
    (own decl arity).rename g = own (g decl) arity := by
  unfold own
  split_ifs
  · rfl
  · rw [rename_applied, List.map_map]
    rfl

/-- The owner of parameters is another one under other numbers too. -/
theorem anyOwner_rename (hg : g.Injective) (decl : DeclId) (t : Ty) :
    (t.rename g).anyOwner (· != g decl) = t.anyOwner (· != decl) := by
  induction t with
  | plain d => rfl
  | param owner index => simp [rename, anyOwner, bne, hg.eq_iff, BEq.beq]
  | applied d args ih =>
    rw [rename_applied, anyOwner, anyOwner, anyOwnerIn_eq_any, anyOwnerIn_eq_any, List.any_map,
      Bool.eq_iff_iff, List.any_eq_true, List.any_eq_true]
    refine exists_congr fun a => and_congr_right fun ha => ?_
    rw [Function.comp_apply, ih a ha]

theorem Part.rename (h : s.Part t) (g : DeclId → DeclId) : (s.rename g).Part (t.rename g) := by
  induction h with
  | refl => exact .refl
  | arg ha _ ih =>
    rw [rename_applied]
    exact .arg (List.mem_map_of_mem ha) ih

end Ty

/-! ## Attachments -/

/-- Where a type is attached to a declaration. -/
inductive Slot where
  | base
  | interface
  | bound (index : Nat)
deriving DecidableEq

/-- Bases and interfaces are supertypes. -/
def Slot.isSupertype : Slot → Bool
  | base => true
  | interface => true
  | bound _ => false

/-- A type that is attached to a declaration. -/
structure Attachment where
  decl : DeclId
  slot : Slot
  type : Ty

namespace Attachment

/-- What the type is attached to. -/
def key (a : Attachment) : DeclId × Slot :=
  (a.decl, a.slot)

def rename (g : DeclId → DeclId) (a : Attachment) : Attachment :=
  { decl := g a.decl, slot := a.slot, type := a.type.rename g }

/-- No declaration gets two bases. -/
def OneBase (keys : List (DeclId × Slot)) : Prop :=
  keys.Pairwise fun k l => k.2 = .base → l ≠ k

/-- One declaration gets a supertype that the other one heads. -/
def Ascends (l : List Attachment) (child parent : DeclId) : Prop :=
  ∃ a ∈ l, a.decl = child ∧ a.slot.isSupertype ∧ a.type.head? = some parent

end Attachment

/-- Appends a tree, unless it is listed already. -/
def listing (ts : List Ty) (t : Ty) : List Ty :=
  if t ∈ ts then ts else ts ++ [t]

theorem mem_listing {ts : List Ty} {s t : Ty} : s ∈ listing ts t ↔ s ∈ ts ∨ s = t := by
  unfold listing
  split_ifs with h
  · exact ⟨Or.inl, fun hs => hs.elim id fun he => he ▸ h⟩
  · simp

theorem map_listing {f : Ty → Ty} (hf : f.Injective) (ts : List Ty) (t : Ty) :
    (listing ts t).map f = listing (ts.map f) (f t) := by
  simp only [listing, List.mem_map_of_injective hf]
  split_ifs <;> simp

namespace Signature

open Attachment

variable {S S' : Signature} {g : DeclId → DeclId} {a b : Attachment} {l l' : List Attachment}

/-- A signature with one more type attached. -/
def attach (S : Signature) (a : Attachment) : Signature :=
  match a.slot with
  | .base => { S with declBase := Function.update S.declBase a.decl (some a.type) }
  | .interface =>
    { S with
      declInterfaces := Function.update S.declInterfaces a.decl
        (listing (S.declInterfaces a.decl) a.type) }
  | .bound index =>
    { S with
      bounds := Function.update S.bounds a.decl (Function.update (S.bounds a.decl) index
        (listing (S.bounds a.decl index) a.type)) }

/-- Whether a type may be attached, circles apart. -/
def Admits (S : Signature) (a : Attachment) : Prop :=
  a.type.anyOwner (· != a.decl) = false ∧
    match a.slot with
    | .base => S.kind? a.decl ≠ some .interfaceKind ∧ S.isBaseKind a.type
    | .interface => S.isInterface a.type
    | .bound _ => True

/-- All of the attachments are admitted and make no circle. -/
def Allows (S : Signature) (l : List Attachment) : Prop :=
  (∀ a ∈ l, S.Admits a) ∧ ∀ x, ¬ TransGen (Ascends l) x x

theorem Allows.mono (h : S.Allows l) (hsub : l' ⊆ l) : S.Allows l' := by
  refine ⟨fun a ha => h.1 a (hsub ha), fun x hx => h.2 x (TransGen.mono ?_ _ _ hx)⟩
  rintro child parent ⟨a, ha, hrest⟩
  exact ⟨a, hsub ha, hrest⟩

theorem kind?_attach (S : Signature) (a : Attachment) : (S.attach a).kind? = S.kind? := by
  unfold attach
  split <;> rfl

/-! ## The order of attachments -/

/-- A declaration has a supertype that the other one heads. -/
def Parent (S : Signature) (child parent : DeclId) : Prop :=
  (∃ t, S.declBase child = some t ∧ t.head? = some parent) ∨
    ∃ t ∈ S.declInterfaces child, t.head? = some parent

/-- No declaration has a supertype. -/
structure Rootless (S : Signature) : Prop where
  declBase : ∀ x, S.declBase x = none
  declInterfaces : ∀ x, S.declInterfaces x = []

/-- A supertype makes one more parent, unless it takes the place of another one. -/
theorem parent_attach_iff (hbase : a.slot = .base → S.declBase a.decl = none) {x y : DeclId} :
    (S.attach a).Parent x y ↔
      S.Parent x y ∨ a.decl = x ∧ a.slot.isSupertype ∧ a.type.head? = some y := by
  obtain ⟨decl, slot, t⟩ := a
  cases slot with
  | base =>
    by_cases hx : x = decl
    · subst hx
      simp [attach, Parent, Slot.isSupertype, hbase rfl, or_comm]
    · simp [attach, Parent, Slot.isSupertype, hx, Ne.symm hx]
  | interface =>
    by_cases hx : x = decl
    · subst hx
      simp [attach, Parent, Slot.isSupertype, mem_listing, or_and_right, exists_or, or_assoc]
    · simp [attach, Parent, Slot.isSupertype, hx, Ne.symm hx]
  | bound index => simp [attach, Parent, Slot.isSupertype]

theorem declBase_foldl_attach {x : DeclId} (h : ∀ a ∈ l, a.key ≠ (x, .base)) :
    (l.foldl attach S).declBase x = S.declBase x := by
  induction l generalizing S with
  | nil => rfl
  | cons a l ih =>
    rw [List.foldl_cons, ih fun b hb => h b (List.mem_cons_of_mem _ hb)]
    have ha := h a List.mem_cons_self
    obtain ⟨decl, slot, t⟩ := a
    cases slot with
    | base =>
      refine Function.update_of_ne (fun hx => ha ?_) _ _
      rw [hx]
      rfl
    | interface => rfl
    | bound index => rfl

/-- Parents are those that the attachments lead to. -/
theorem parent_foldl_attach_iff (hS : S.Rootless) (hone : OneBase (l.map key)) {x y : DeclId} :
    (l.foldl attach S).Parent x y ↔ Ascends l x y := by
  induction l using List.reverseRecOn with
  | nil => simp [Parent, Ascends, hS.declBase, hS.declInterfaces]
  | append_singleton l a ih =>
    rw [OneBase, List.map_append, List.pairwise_append] at hone
    rw [List.foldl_append, List.foldl_cons, List.foldl_nil, parent_attach_iff, ih hone.1]
    · simp [Ascends, or_and_right, exists_or]
    · intro hslot
      rw [declBase_foldl_attach, hS.declBase]
      intro b hb hkey
      refine hone.2.2 b.key (List.mem_map_of_mem hb) a.key (List.mem_singleton.2 rfl) ?_ ?_
      · rw [hkey]
      · rw [hkey, key, hslot]

theorem kind?_foldl_attach (l : List Attachment) (S : Signature) :
    (l.foldl attach S).kind? = S.kind? := by
  induction l generalizing S with
  | nil => rfl
  | cons a l ih => rw [List.foldl_cons, ih, kind?_attach]

/-- An attachment is admitted, and the declaration is not found on the way up from the type. -/
def Permits (S : Signature) (a : Attachment) : Prop :=
  S.Admits a ∧ (a.slot.isSupertype →
    ∀ parent, a.type.head? = some parent → ¬ ReflTransGen S.Parent parent a.decl)

theorem admits_of_kind?_eq (h : S'.kind? = S.kind?) : S'.Admits a ↔ S.Admits a := by
  simp only [Admits, isBaseKind, isInterface, kindOf?, h]

/-- One more attachment is allowed exactly if what was attached before accepts it. -/
theorem allows_concat_iff (hS : S.Rootless) (hl : S.Allows l)
    (hone : OneBase ((l ++ [a]).map key)) :
    S.Allows (l ++ [a]) ↔ (l.foldl attach S).Permits a := by
  have hparent : (l.foldl attach S).Parent = Ascends l := by
    funext x y
    rw [OneBase, List.map_append, List.pairwise_append] at hone
    exact propext (parent_foldl_attach_iff hS hone.1)
  rw [Permits, hparent, admits_of_kind?_eq (kind?_foldl_attach l S)]
  constructor
  · intro h
    refine ⟨h.1 a (by simp), fun hslot parent hhead hpath => h.2 a.decl ?_⟩
    have hedge : Ascends (l ++ [a]) a.decl parent := ⟨a, by simp, rfl, hslot, hhead⟩
    refine .head' hedge (ReflTransGen.mono (fun x y hxy => ?_) _ _ hpath)
    obtain ⟨b, hb, hrest⟩ := hxy
    exact ⟨b, List.mem_append_left _ hb, hrest⟩
  · rintro ⟨hadmits, hpath⟩
    refine ⟨fun b hb => ?_, fun x hx => ?_⟩
    · rcases List.mem_append.1 hb with hb | hb
      · exact hl.1 b hb
      · rwa [List.mem_singleton.1 hb]
    -- A circle would go through the edge that is new, if there is one.
    have hnew : ∀ x y, Ascends (l ++ [a]) x y → Ascends l x y ∨
        a.slot.isSupertype ∧ x = a.decl ∧ a.type.head? = some y := by
      rintro x y ⟨b, hb, rfl, hslot, hhead⟩
      rcases List.mem_append.1 hb with hb | hb
      · exact Or.inl ⟨b, hb, rfl, hslot, hhead⟩
      · rw [List.mem_singleton.1 hb] at hslot hhead ⊢
        exact Or.inr ⟨hslot, rfl, hhead⟩
    by_cases hedge : a.slot.isSupertype ∧ ∃ parent, a.type.head? = some parent
    · obtain ⟨hslot, parent, hhead⟩ := hedge
      refine Universe.not_transGen_self_of_edge (fun x y hxy => (hnew x y hxy).imp_right ?_) hl.2
        (hpath hslot parent hhead) x hx
      rintro ⟨-, rfl, hy⟩
      exact ⟨rfl, Option.some.inj (hy.symm.trans hhead)⟩
    · refine hl.2 x (TransGen.mono (fun x y hxy => ?_) _ _ hx)
      exact (hnew x y hxy).resolve_right fun hy => hedge ⟨hy.1, y, hy.2.2⟩

/-! ## Other numbers -/

/-- The second signature says of the declarations, under other numbers, what the first one does. -/
structure Renames (g : DeclId → DeclId) (S S' : Signature) : Prop where
  size : S'.size = S.size
  kind? : ∀ x, S'.kind? (g x) = S.kind? x
  declBase : ∀ x, S'.declBase (g x) = (S.declBase x).map (Ty.rename g)
  declInterfaces : ∀ x, S'.declInterfaces (g x) = (S.declInterfaces x).map (Ty.rename g)
  bounds : ∀ x i, S'.bounds (g x) i = (S.bounds x i).map (Ty.rename g)

namespace Renames

variable (h : S.Renames g S') (hg : g.Injective)
include h

theorem kindOf? (t : Ty) : S'.kindOf? (t.rename g) = S.kindOf? t := by
  rw [Signature.kindOf?, Ty.head?_rename, Signature.kindOf?]
  cases t.head? with
  | none => rfl
  | some decl => exact h.kind? decl

include hg

theorem attach (a : Attachment) : (S.attach a).Renames g (S'.attach (a.rename g)) := by
  have hty := Ty.rename_injective hg
  obtain ⟨decl, slot, t⟩ := a
  cases slot with
  | base =>
    refine ⟨h.size, h.kind?, fun x => ?_, h.declInterfaces, h.bounds⟩
    simp only [Signature.attach, Attachment.rename, Function.update_apply, hg.eq_iff, h.declBase]
    split_ifs <;> rfl
  | interface =>
    refine ⟨h.size, h.kind?, h.declBase, fun x => ?_, h.bounds⟩
    simp only [Signature.attach, Attachment.rename, Function.update_apply, hg.eq_iff,
      h.declInterfaces, ← map_listing hty]
    split_ifs <;> rfl
  | bound index =>
    refine ⟨h.size, h.kind?, h.declBase, h.declInterfaces, fun x i => ?_⟩
    by_cases hx : x = decl
    · subst hx
      simp only [Signature.attach, Attachment.rename, Function.update_apply, if_true, h.bounds,
        ← map_listing hty]
      split_ifs <;> rfl
    · simp [Signature.attach, Attachment.rename, hg.eq_iff, hx, h.bounds]

theorem admits (a : Attachment) : S'.Admits (a.rename g) ↔ S.Admits a := by
  obtain ⟨decl, slot, t⟩ := a
  simp only [Admits, Attachment.rename, Ty.anyOwner_rename hg, Signature.isBaseKind,
    Signature.isInterface, h.kindOf?, h.kind?]

/-- What is allowed under the new numbers is allowed under the old ones. -/
theorem allows (hl : S'.Allows (l.map (·.rename g))) : S.Allows l := by
  refine ⟨fun a ha => (h.admits hg a).1 (hl.1 _ (List.mem_map_of_mem ha)), fun x hx => ?_⟩
  refine hl.2 (g x) (TransGen.lift g (fun child parent hedge => ?_) _ _ hx)
  obtain ⟨a, ha, rfl, hslot, hhead⟩ := hedge
  refine ⟨_, List.mem_map_of_mem ha, rfl, hslot, ?_⟩
  rw [Attachment.rename, Ty.head?_rename, hhead]
  rfl

end Renames

end Signature

end Subtyping
