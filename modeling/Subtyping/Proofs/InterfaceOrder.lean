import Subtyping.Proofs.Assignability
import Subtyping.Proofs.Termination

/-!
# The order of interfaces

The interfaces of a type are enumerated along its base chain, from the root-most ancestor down to the
type itself. Written out in full, each ancestor contributes the interfaces that it declares, each one
followed at once by those it declares in turn (`Unfolds`); of repetitions the first stays
(`Signature.exists_closureOf_eq`). The enumeration leaves out what is below an interface that it has
seen. That loses nothing: what is below has been listed when the interface was first met, for an
interface whose listing is still going on is higher than all that is met during it.

In a universe in use, asking for what is declared may add types. When the enumeration is over, all that
it met is known, so the order can be read off the universe that it leaves behind
(`UniverseM.interfaces_in_order`).
-/

namespace Subtyping

open Relation

/-! ## First occurrences -/

section FirstOccurrences

variable {α β : Type} [DecidableEq α] [DecidableEq β] {l new : List α} {a : α}

theorem eraseDups_append_of_subset (h : new ⊆ l) : (l ++ new).eraseDups = l.eraseDups := by
  have hnone : new.removeAll l = [] := by
    rw [List.removeAll, List.filter_eq_nil_iff]
    intro x hx
    simpa using h hx
  rw [List.eraseDups_append, hnone, List.eraseDups_nil, List.append_nil]

theorem eraseDups_append_singleton (h : a ∉ l) : (l ++ [a]).eraseDups = l.eraseDups ++ [a] := by
  rw [List.eraseDups_append]
  simp [List.removeAll, List.eraseDups_cons, h]

/-- Members that are told apart by `f` are first met in the same places. -/
theorem eraseDups_map {f : α → β} (hf : ∀ x ∈ l, ∀ y ∈ l, f x = f y → x = y) :
    (l.map f).eraseDups = l.eraseDups.map f := by
  induction l using List.reverseRecOn with
  | nil => rfl
  | append_singleton l a ih =>
    have ih := ih fun x hx y hy =>
      hf x (List.mem_append_left _ hx) y (List.mem_append_left _ hy)
    rw [List.map_append, List.map_singleton]
    by_cases ha : a ∈ l
    · have hfa : f a ∈ l.map f := List.mem_map_of_mem ha
      rw [eraseDups_append_of_subset (by simpa using hfa), ih,
        eraseDups_append_of_subset (by simpa using ha)]
    · have hfa : f a ∉ l.map f := by
        intro hmem
        obtain ⟨x, hx, hxa⟩ := List.mem_map.1 hmem
        exact ha (hf x (List.mem_append_left _ hx) a (by simp) hxa ▸ hx)
      rw [eraseDups_append_singleton ha, eraseDups_append_singleton hfa, ih, List.map_append,
        List.map_singleton]

end FirstOccurrences

/-! ## Unfolding a list -/

/-- All members of a list, each one followed by the unfolding of what it declares. -/
inductive Unfolds {α : Type} (declared : α → List α) : List α → List α → Prop where
  | nil : Unfolds declared [] []
  | cons {i : α} {rest below after : List α} (hbelow : Unfolds declared (declared i) below)
      (hrest : Unfolds declared rest after) : Unfolds declared (i :: rest) (i :: (below ++ after))

namespace Unfolds

variable {α : Type} {declared : α → List α} {height : α → Nat} {l all seen : List α}

theorem unique {all' : List α} (h : Unfolds declared l all) (h' : Unfolds declared l all') :
    all = all' := by
  induction h generalizing all' with
  | nil =>
    cases h'
    rfl
  | cons _ _ ih ih' =>
    cases h' with
    | cons hbelow hrest => rw [ih hbelow, ih' hrest]

theorem subset (h : Unfolds declared l all) : l ⊆ all := by
  induction h with
  | nil => exact List.Subset.refl []
  | cons _ _ _ ih => exact List.cons_subset_cons _ (List.Subset.trans ih (List.subset_append_right _ _))

/-- What a member declares is a member. -/
theorem declared_subset (h : Unfolds declared l all) : ∀ x ∈ all, declared x ⊆ all := by
  induction h with
  | nil => simp
  | @cons i rest below after hbelow _ ih ih' =>
    have hleft : below ⊆ i :: (below ++ after) := fun y hy => by simp [hy]
    have hright : after ⊆ i :: (below ++ after) := fun y hy => by simp [hy]
    intro x hx
    rcases List.mem_cons.1 hx with rfl | hx
    · exact List.Subset.trans hbelow.subset hleft
    · rcases List.mem_append.1 hx with hx | hx
      · exact List.Subset.trans (ih x hx) hleft
      · exact List.Subset.trans (ih' x hx) hright

section Descending

variable (hdesc : ∀ x, ∀ y ∈ declared x, height y < height x)
include hdesc

/-- Where all that is declared is lower, every list can be unfolded. -/
theorem exists_of_descending (l : List α) : ∃ all, Unfolds declared l all := by
  suffices hbound : ∀ n l, (∀ x ∈ l, height x < n) → ∃ all, Unfolds declared l all by
    refine hbound ((l.map height).foldr max 0 + 1) l fun x hx => Nat.lt_succ_of_le ?_
    exact List.le_max_of_le' 0 (List.mem_map_of_mem hx) le_rfl
  intro n
  induction n with
  | zero =>
    intro l hl
    obtain rfl : l = [] := List.eq_nil_iff_forall_not_mem.2 fun x hx => Nat.not_lt_zero _ (hl x hx)
    exact ⟨[], .nil⟩
  | succ n ihn =>
    intro l hl
    induction l with
    | nil => exact ⟨[], .nil⟩
    | cons x l ih =>
      have hx := hl x List.mem_cons_self
      obtain ⟨below, hbelow⟩ := ihn (declared x) fun y hy => by
        have := hdesc x y hy
        omega
      obtain ⟨after, hafter⟩ := ih fun y hy => hl y (List.mem_cons_of_mem _ hy)
      exact ⟨_, .cons hbelow hafter⟩

/-- A list below a height that is seen, with all that what is seen below that height declares, is seen
with its unfolding. -/
theorem subset_of_seen {bound : Nat} (h : Unfolds declared l all)
    (hseen : ∀ x ∈ seen, height x < bound → declared x ⊆ seen) (hl : ∀ x ∈ l, height x < bound)
    (hsub : l ⊆ seen) : all ⊆ seen := by
  induction h with
  | nil => exact List.nil_subset _
  | @cons i rest below after _ _ ih ih' =>
    obtain ⟨hi, hrest⟩ := List.forall_mem_cons.1 hl
    obtain ⟨himem, hrestsub⟩ := List.cons_subset.1 hsub
    have hbelow := ih (fun y hy => (hdesc i y hy).trans hi) (hseen i himem hi)
    exact List.cons_subset.2 ⟨himem, List.append_subset.2 ⟨hbelow, ih' hrest hrestsub⟩⟩

end Descending

end Unfolds

namespace Signature

variable {S : Signature} {height : Ty → Nat} {l all seen ancestors : List Ty} {n bound : Nat}

/-! ## Collecting interfaces -/

section Descending

variable (hdesc : ∀ t, ∀ i ∈ S.declaredBy t, height i < height t)
include hdesc

/-- Collecting a list of interfaces, after others, keeps the first occurrences in the unfolding. All that
was met before and is as low as the list is there with what it declares. -/
theorem foldl_collect (h : Unfolds S.declaredBy l all) (hl : ∀ i ∈ l, height i < bound)
    (hn : ∀ i ∈ l, height i < n)
    (hseen : ∀ x ∈ seen, height x < bound → S.declaredBy x ⊆ seen) :
    l.foldl (S.collect n) seen.eraseDups = (seen ++ all).eraseDups := by
  induction h generalizing seen n bound with
  | nil => rw [List.foldl_nil, List.append_nil]
  | @cons i rest below after hbelow _ ih ih' =>
    obtain ⟨hi, hrest⟩ := List.forall_mem_cons.1 hl
    obtain ⟨hin, hrestn⟩ := List.forall_mem_cons.1 hn
    have hone : Unfolds S.declaredBy [i] (i :: below) := by
      simpa using Unfolds.cons hbelow .nil
    have hfirst : S.collect n seen.eraseDups i = (seen ++ i :: below).eraseDups := by
      obtain ⟨m, rfl⟩ : ∃ m, n = m + 1 := ⟨n - 1, by omega⟩
      rw [collect]
      split_ifs with hmem
      · have hsub := hone.subset_of_seen hdesc hseen (by simpa using hi)
          (by simpa using List.mem_eraseDups.1 hmem)
        rw [eraseDups_append_of_subset hsub]
      · have hnew : i ∉ seen := fun h => hmem (List.mem_eraseDups.2 h)
        have hlower : ∀ j ∈ S.declaredBy i, height j < m := fun j hj => by
          have := hdesc i j hj
          omega
        rw [← eraseDups_append_singleton hnew, ih (hdesc i) hlower, List.append_assoc,
          List.singleton_append]
        · -- the interface itself is not as low as what it declares
          intro x hx hlt
          rcases List.mem_append.1 hx with hx | hx
          · exact List.Subset.trans (hseen x hx (hlt.trans hi)) (List.subset_append_left _ _)
          · cases List.mem_singleton.1 hx
            exact absurd hlt (Nat.lt_irrefl _)
    rw [List.foldl_cons, hfirst, ih' hrest hrestn, List.append_assoc, List.cons_append]
    intro x hx hlt
    rcases List.mem_append.1 hx with hx | hx
    · exact List.Subset.trans (hseen x hx hlt) (List.subset_append_left _ _)
    · exact List.Subset.trans (hone.declared_subset x hx) (List.subset_append_right _ _)

/-- Going through types in order, what each one declares is unfolded. -/
theorem exists_foldl_collect (hn : ∀ t, ∀ i ∈ S.declaredBy t, height i < n) (seen : List Ty)
    (hseen : ∀ x ∈ seen, S.declaredBy x ⊆ seen) :
    ∃ parts, List.Forall₂ (fun t part => Unfolds S.declaredBy (S.declaredBy t) part) ancestors parts ∧
      ancestors.foldl (fun seen t => (S.declaredBy t).foldl (S.collect n) seen) seen.eraseDups =
        (seen ++ parts.flatten).eraseDups := by
  induction ancestors generalizing seen with
  | nil => exact ⟨[], .nil, by rw [List.foldl_nil, List.flatten_nil, List.append_nil]⟩
  | cons t ancestors ih =>
    obtain ⟨part, hpart⟩ := Unfolds.exists_of_descending hdesc (S.declaredBy t)
    obtain ⟨parts, hparts, heq⟩ := ih (seen ++ part) fun x hx => by
      rcases List.mem_append.1 hx with hx | hx
      · exact List.Subset.trans (hseen x hx) (List.subset_append_left _ _)
      · exact List.Subset.trans (hpart.declared_subset x hx) (List.subset_append_right _ _)
    refine ⟨part :: parts, .cons hpart hparts, ?_⟩
    rw [List.foldl_cons, foldl_collect hdesc hpart (hn t) (hn t) fun x hx _ => hseen x hx, heq,
      List.flatten_cons, List.append_assoc]

/-- The interfaces of a type are the first occurrences in the unfoldings along its base chain. -/
theorem exists_closureOf_eq (hsize : ∀ t, ∀ i ∈ S.declaredBy t, height i < S.size) (t : Ty) :
    ∃ parts, List.Forall₂ (fun t part => Unfolds S.declaredBy (S.declaredBy t) part)
      (S.chain t).reverse parts ∧ S.closureOf t = parts.flatten.eraseDups :=
  exists_foldl_collect hdesc hsize [] (by simp)

end Descending

end Signature

namespace Universe

variable {u v : Universe} {l : List Handle} {ts : List Ty}

/-- First occurrences are the same on handles and on trees. -/
theorem Consistent.forall₂_reads_eraseDups (hu : u.Consistent) (h : List.Forall₂ u.Reads l ts) :
    List.Forall₂ u.Reads l.eraseDups ts.eraseDups := by
  obtain ⟨hknown, rfl⟩ := forall₂_reads_iff.1 h
  refine forall₂_reads_iff.2 ⟨fun ty hty => hknown ty (List.mem_eraseDups.1 hty), ?_⟩
  refine (eraseDups_map fun x hx y hy hxy => ?_).symm
  exact hu.reads_injective (reads_typeAt (hknown x hx)) ⟨hknown y hy, hxy.symm⟩

/-- Types that were known before keep their handles. -/
theorem Grows.forall₂_reads_of_has (h : u.Grows v) (hl : List.Forall₂ v.Reads l ts)
    (hknown : ∀ t ∈ ts, u.Has t) : List.Forall₂ u.Reads l ts := by
  induction hl with
  | nil => exact .nil
  | @cons ty t l ts hty _ ih =>
    obtain ⟨⟨ty', hty'⟩, hrest⟩ := List.forall_mem_cons.1 hknown
    obtain rfl : ty = ty' := h.after.reads_injective hty (h.reads hty')
    exact .cons hty' (ih hrest)

end Universe

namespace UniverseM

open Universe

variable {c : Chronicle} {ty : Handle} {t : Ty} {l : List Handle} {ts all : List Ty}
  {parts : List (List Ty)}

/-! ## Unfolding in a universe in use -/

section Known

variable (hu : c.univ.Consistent)
include hu

/-- Where all that a type declares is known, asking for it gives the handles. -/
theorem forall₂_reads_declaredInterfaces (hty : c.univ.Reads ty t)
    (hknown : ∀ i ∈ c.univ.signature.declaredBy t, c.univ.Has i) :
    List.Forall₂ c.univ.Reads (declaredInterfaces ty c).1 (c.univ.signature.declaredBy t) := by
  obtain ⟨hg, hdeclared⟩ := declaredInterfaces_ensures hu hty c.journal
  exact hg.forall₂_reads_of_has hdeclared hknown

/-- Unfolding on handles follows unfolding on trees, where all the trees are known. -/
theorem exists_unfolds (h : Unfolds c.univ.signature.declaredBy ts all)
    (hl : List.Forall₂ c.univ.Reads l ts) (hknown : ∀ t ∈ all, c.univ.Has t) :
    ∃ part, Unfolds (fun i => (declaredInterfaces i c).1) l part ∧
      List.Forall₂ c.univ.Reads part all := by
  induction h generalizing l with
  | nil =>
    obtain rfl := List.forall₂_nil_right_iff.1 hl
    exact ⟨[], .nil, .nil⟩
  | @cons t ts below after hbelow _ ih ih' =>
    obtain ⟨ty, l, hty, hrest, rfl⟩ := List.forall₂_cons_right_iff.1 hl
    obtain ⟨-, hknown⟩ := List.forall_mem_cons.1 hknown
    obtain ⟨hknownb, hknowna⟩ := List.forall_mem_append.1 hknown
    have hdeclared := forall₂_reads_declaredInterfaces hu hty fun i hi => hknownb i (hbelow.subset hi)
    obtain ⟨part, hpart, hreads⟩ := ih hdeclared hknownb
    obtain ⟨part', hpart', hreads'⟩ := ih' hrest hknowna
    exact ⟨_, .cons hpart hpart', .cons hty (List.rel_append hreads hreads')⟩

theorem exists_forall₂_unfolds
    (h : List.Forall₂ (fun t part => Unfolds c.univ.signature.declaredBy
      (c.univ.signature.declaredBy t) part) ts parts)
    (hl : List.Forall₂ c.univ.Reads l ts) (hknown : ∀ t ∈ parts.flatten, c.univ.Has t) :
    ∃ parts', List.Forall₂ (fun ancestor part => Unfolds (fun i => (declaredInterfaces i c).1)
      (declaredInterfaces ancestor c).1 part) l parts' ∧
        List.Forall₂ c.univ.Reads parts'.flatten parts.flatten := by
  induction h generalizing l with
  | nil =>
    obtain rfl := List.forall₂_nil_right_iff.1 hl
    exact ⟨[], .nil, .nil⟩
  | @cons t all ts parts hall _ ih =>
    obtain ⟨ty, l, hty, hrest, rfl⟩ := List.forall₂_cons_right_iff.1 hl
    rw [List.flatten_cons] at hknown
    obtain ⟨hknownt, hknowns⟩ := List.forall_mem_append.1 hknown
    have hdeclared := forall₂_reads_declaredInterfaces hu hty fun i hi => hknownt i (hall.subset hi)
    obtain ⟨part, hpart, hreads⟩ := exists_unfolds hu hall hdeclared hknownt
    obtain ⟨parts', hparts', hreads'⟩ := ih hrest hknowns
    exact ⟨part :: parts', .cons hpart hparts', List.rel_append hreads hreads'⟩

/-- After the base chain, only types are added. -/
theorem grows_of_computeInterfaces (hty : c.univ.contains ty) :
    (baseChain ty c).2.univ.Grows (computeInterfaces ty c).2.univ := by
  obtain ⟨hg, hchain⟩ := baseChain_ensures hu (reads_typeAt hty) c.journal
  exact (foldlM_collect_ensures hg.after (List.rel_reverse hchain) _).1

end Known

section Built

variable (hc : c.univ.Built) (hty : c.univ.contains ty)
include hc hty

/-- In the universe that it leaves behind, the enumeration has given the first occurrences in the
unfoldings along the base chain. -/
theorem exists_computeInterfaces_eq :
    ∃ parts, List.Forall₂ (fun ancestor part =>
        Unfolds (fun i => (declaredInterfaces i (computeInterfaces ty c).2).1)
          (declaredInterfaces ancestor (computeInterfaces ty c).2).1 part)
        (baseChain ty c).1.reverse parts ∧
      (computeInterfaces ty c).1 = parts.flatten.eraseDups := by
  have hu := hc.valid.consistent
  have hS := hc.wellKinded
  have ht := reads_typeAt hty
  obtain ⟨hg, hclosure⟩ := computeInterfaces_ensures hu ht c.journal
  obtain ⟨-, hchain⟩ := baseChain_ensures hu ht c.journal
  obtain ⟨parts, hparts, heq⟩ := Signature.exists_closureOf_eq
    (fun t i hi => hu.height_lt_of_above hS (Or.inr hi))
    (fun t i hi => hu.height_lt_size (hS.isSome_kindOf?_of_above (Or.inr hi))) (c.univ.typeAt ty)
  have hknown : ∀ t ∈ parts.flatten, (computeInterfaces ty c).2.univ.Has t := by
    intro t hmem
    rw [← List.mem_eraseDups, ← heq] at hmem
    obtain ⟨i, -, hi⟩ := exists_of_forall₂_of_mem hclosure.flip hmem
    exact ⟨i, hi⟩
  rw [← hg.signature] at hparts hchain
  have hancestors := (grows_of_computeInterfaces hu hty).forall₂_reads (List.rel_reverse hchain)
  obtain ⟨parts', hparts', hreads⟩ := exists_forall₂_unfolds hg.after hparts hancestors hknown
  rw [heq] at hclosure
  exact ⟨parts', hparts',
    hg.after.forall₂_reads_injective hclosure (hg.after.forall₂_reads_eraseDups hreads)⟩

theorem isInterface_of_mem_computeInterfaces {i : Handle} (hi : i ∈ (computeInterfaces ty c).1) :
    (computeInterfaces ty c).2.univ.isInterface i := by
  obtain ⟨hg, hclosure⟩ :=
    computeInterfaces_ensures hc.valid.consistent (reads_typeAt hty) c.journal
  obtain ⟨t, hmem, ht⟩ := exists_of_forall₂_of_mem hclosure hi
  rw [hg.after.isInterface_of_reads ht, hg.signature]
  exact hc.wellKinded.isInterface_of_mem_closureOf t hmem

/-- A type is higher than its interfaces. -/
theorem not_mem_computeInterfaces : ty ∉ (computeInterfaces ty c).1 := by
  intro hmem
  have hu := hc.valid.consistent
  have hread := reads_typeAt hty
  obtain ⟨hg, hclosure⟩ := computeInterfaces_ensures hu hread c.journal
  obtain ⟨t, ht, hreads⟩ := exists_of_forall₂_of_mem hclosure hmem
  obtain rfl : c.univ.typeAt ty = t := (hg.reads hread).2.symm.trans hreads.2
  have hlt := hu.height_lt_of_transGen hc.wellKinded (Signature.transGen_of_mem_closureOf _ ht)
  exact Nat.lt_irrefl _ hlt

/-- The enumeration of interfaces ends, whatever would be done beyond as many generations as there are
declarations. It gives the first occurrences in the unfoldings of what the types of the base chain
declare, from the root-most one down to the type itself. These are interfaces, without repetition and
without the type itself. -/
theorem interfaces_in_order :
    (∀ beyond levels, c.univ.catalog.size ≤ levels →
      computeInterfacesBy (unfolded collectBy beyond levels) ty c = computeInterfaces ty c) ∧
    (∃! parts, List.Forall₂ (fun ancestor part =>
        Unfolds (fun i => (declaredInterfaces i (computeInterfaces ty c).2).1)
          (declaredInterfaces ancestor (computeInterfaces ty c).2).1 part)
        (baseChain ty c).1.reverse parts ∧
      (computeInterfaces ty c).1 = parts.flatten.eraseDups) ∧
    (computeInterfaces ty c).1.Nodup ∧
    (∀ i ∈ (computeInterfaces ty c).1, (computeInterfaces ty c).2.univ.isInterface i) ∧
    ty ∉ (computeInterfaces ty c).1 := by
  obtain ⟨parts, hparts, heq⟩ := exists_computeInterfaces_eq hc hty
  refine ⟨fun beyond levels hlevels =>
    computeInterfacesBy_unfolded hc.valid.consistent hty beyond hlevels c.journal,
    ⟨parts, ⟨hparts, heq⟩, fun parts' h => ?_⟩, ?_,
    fun i => isInterface_of_mem_computeInterfaces hc hty, not_mem_computeInterfaces hc hty⟩
  · refine Relator.RightUnique.forall₂ ?_ h.1 hparts
    exact fun _ _ _ => Unfolds.unique
  · rw [heq]
    exact nodup_eraseDups _

end Built

/-- An interface `B<T>`, and an interface `A<U>` that lists `B<A<A<U>>>`: what `A` is applied to grows with
every level. The last type is `A<X>`, with a class `X`. -/
def expansive : Chronicle :=
  Operation.runAll
    [.declare (.bare .interfaceKind "B" ["T"]), .declare (.bare .interfaceKind "A" ["U"]),
      .apply ⟨4⟩ [⟨4⟩], .apply ⟨2⟩ [⟨5⟩], .addInterface ⟨4⟩ ⟨6⟩, .declare (.bare .classKind "X" []),
      .apply ⟨4⟩ [⟨7⟩]] .fresh

theorem built_expansive : expansive.univ.Built :=
  Operation.built_runAll .empty (by cbv)

/-- The interfaces of `A<X>` are `B<A<A<X>>>` alone, which was not known before. -/
theorem interfaces_in_order_expansive :
    expansive.univ.contains ⟨8⟩ ∧ (computeInterfaces ⟨8⟩ expansive).1 = [⟨10⟩] ∧
      (computeInterfaces ⟨8⟩ expansive).2.univ.isInterface ⟨10⟩ ∧
      computeInterfacesBy (unfolded collectBy (fun _ _ => pure []) 3) ⟨8⟩ expansive =
        computeInterfaces ⟨8⟩ expansive := by
  have hknown : expansive.univ.contains ⟨8⟩ := by cbv
  have hlist : (computeInterfaces ⟨8⟩ expansive).1 = [⟨10⟩] := by cbv
  have hsize : expansive.univ.catalog.size ≤ 3 := of_decide_eq_true (by cbv)
  obtain ⟨hends, -, -, hkind, -⟩ := interfaces_in_order built_expansive hknown
  refine ⟨hknown, hlist, hkind _ ?_, hends _ 3 hsize⟩
  rw [hlist]
  exact List.mem_singleton_self _

end UniverseM

end Subtyping
