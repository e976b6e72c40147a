import Subtyping.Proofs.Steps

/-!
# Closures on record

A closure on record is used instead of working it out anew. Steps that change a declaration forget all
closures; a new declaration and new types change the closure of no known type, so a closure that was
right stays right (`Universe.Evolves.records`). A closure that is asked for while its handle is unknown
is empty, and stays on record when the handle becomes known later. Such handles are strays
(`Step.strays`); for all others, the closure on record is the one that would be worked out now.
-/

namespace Subtyping

open UniverseM

namespace Universe

variable {u v : Universe} {A : Handle → Prop} {ty : Handle} {closure : List Handle} {d : Declaration}

/-- A bare declaration changes no closure. -/
theorem Records.enrolled (hr : u.Records ty closure) (hu : u.Grounded) (hd : d.Bare) :
    (u.enrolled d).Records ty closure := by
  refine ⟨hr.1, ?_⟩
  have hclosure : (u.enrolled d).signature.closureOf (u.typeAt ty) =
      u.signature.closureOf (u.typeAt ty) := by
    obtain ⟨hbase, hdeclared⟩ :=
      hu.consistent.signature_enrolled hd.base hd.interfaces hd.bounds
    exact Signature.closureOf_of_size_succ hu.consistent.exists_ranking hbase hdeclared
      (u.catalog.size_add d) _
  show List.Forall₂ u.Reads closure ((u.enrolled d).signature.closureOf (u.typeAt ty))
  rw [hclosure]
  exact hr.2

/-- What can be on record after a step: what was, and stays right if it was right; what is right; or
an empty closure of a handle in `A`. -/
theorem Evolves.records (hu : u.Grounded) (h : u.Evolves A v)
    (hc : v.closures[ty]? = some closure) :
    (u.closures[ty]? = some closure ∧ (u.Records ty closure → v.Records ty closure)) ∨
      v.Records ty closure ∨ closure = [] ∧ A ty := by
  cases h with
  | expand h => exact (h.closures hc).imp_left fun hold => ⟨hold, h.grows.records⟩
  | declare hd hv hg =>
    exact (hv.closures hc).imp_left fun hold => ⟨hold, fun hr => hv.grows.records (hr.enrolled hu hd)⟩
  | setBase => simp [dropClosures] at hc
  | addInterface => simp [dropClosures] at hc
  | addConstraint => simp [dropClosures] at hc

/-- A closure that is right is the one that is worked out. -/
theorem Records.eq_computeInterfaces (hr : u.Records ty closure) (hu : u.Grounded) (j : Journal) :
    closure = (computeInterfaces ty ⟨u, j⟩).1 := by
  obtain ⟨hg, hnew⟩ := computeInterfaces_expands hu (A := fun _ => False) (j := j) ty
    fun h => by simp [hr.1] at h
  have hnew := hnew.resolve_right fun h => h.2
  exact (hg.grounded hu).consistent.forall₂_reads_injective (hg.grows.records hr).2 hnew.2

end Universe

namespace Step

open Universe

/-- The handles whose closure was asked for while they were unknown and is still on record: those
before a step, and those that the step asks for, as far as a closure of them is on record after it. -/
def straysAfter (s : Step) (c : Chronicle) (strays : List Handle) : List Handle :=
  (s.asks.filter (!c.univ.contains ·) ++ strays).filter ((s.run c).2.univ.closures.contains ·)

/-- Takes a step and keeps track of the strays. -/
def follow (p : Chronicle × List Handle) (s : Step) : Chronicle × List Handle :=
  ((s.run p.1).2, s.straysAfter p.1 p.2)

/-- The strays of a run. -/
def strays (steps : List Step) (c : Chronicle) : List Handle :=
  (steps.foldl follow (c, [])).2

theorem foldl_follow_fst (steps : List Step) (p : Chronicle × List Handle) :
    (steps.foldl follow p).1 = runAll steps p.1 := by
  induction steps generalizing p with
  | nil => rfl
  | cons s steps ih => exact ih (follow p s)

theorem strays_concat (steps : List Step) (s : Step) (c : Chronicle) :
    strays (steps ++ [s]) c = s.straysAfter (runAll steps c) (strays steps c) := by
  rw [strays, List.foldl_append, ← foldl_follow_fst steps (c, [])]
  rfl

/-- A closure on record is right, unless it is the empty one of a stray. -/
theorem records_runAll (steps : List Step) (h : allAllowed steps .fresh) {ty : Handle}
    {closure : List Handle} (hc : (runAll steps .fresh).univ.closures[ty]? = some closure) :
    (runAll steps .fresh).univ.Records ty closure ∨ closure = [] ∧ ty ∈ strays steps .fresh := by
  refine (run_induction (motive := fun steps c => ∀ ty closure, c.univ.closures[ty]? = some closure →
    c.univ.Records ty closure ∨ closure = [] ∧ ty ∈ strays steps .fresh) ?_ ?_ steps h).2 ty closure hc
  · intro ty closure hc
    simp [Chronicle.fresh] at hc
  · rintro steps s c rfl hu hs ih ty closure hc
    have hkept : ∀ l : List Handle, ty ∈ l →
        ty ∈ l.filter ((s.run (runAll steps .fresh)).2.univ.closures.contains ·) := by
      intro l hl
      refine List.mem_filter.2 ⟨hl, ?_⟩
      rw [← Std.HashMap.isSome_getElem?_eq_contains, hc]
      rfl
    have hev := evolves_run (A := fun ty => ty ∈ s.asks ∧ (runAll steps .fresh).univ.contains ty = false)
      hu hs (fun ty hty hunknown => ⟨hty, hunknown⟩) (runAll steps .fresh).journal
    rw [strays_concat]
    rcases hev.records hu hc with ⟨hold, hstays⟩ | hright | ⟨hnil, hasked, hunknown⟩
    · rcases ih ty closure hold with hr | ⟨hnil, hstray⟩
      · exact Or.inl (hstays hr)
      · exact Or.inr ⟨hnil, hkept _ (List.mem_append_right _ hstray)⟩
    · exact Or.inl hright
    · refine Or.inr ⟨hnil, hkept _ (List.mem_append_left _ (List.mem_filter.2 ⟨hasked, ?_⟩))⟩
      rw [hunknown]
      rfl

/-- However a universe is used, as long as the arguments put for parameters are known: the interfaces of
a type are those that would be worked out now, unless they were asked for while the handle was unknown
and are still on record, in which case none are given. -/
theorem interfaces_coherent (steps : List Step) (h : allAllowed steps .fresh) (ty : Handle) :
    let c := runAll steps .fresh
    (interfaces ty c).1 = (computeInterfaces ty c).1 ∨
      ty ∈ strays steps .fresh ∧ (interfaces ty c).1 = [] := by
  intro c
  have hu : c.univ.Grounded := grounded_runAll steps h
  cases hc : c.univ.closures[ty]? with
  | none =>
    left
    rw [interfaces, run_view_bind, hc]
    rfl
  | some closure =>
    have hrun : (interfaces ty c).1 = closure := by
      rw [interfaces, run_view_bind, hc]
      rfl
    rw [hrun]
    rcases records_runAll steps h hc with hr | ⟨hnil, hstray⟩
    · exact Or.inl (hr.eq_computeInterfaces hu c.journal)
    · exact Or.inr ⟨hstray, hnil⟩

/-- An interface `I` and a class `C<T>` that lists it. The interfaces of the next handle are asked for;
then `C<I>` is made, which has that handle. -/
def askedTooEarly : List Step :=
  [.operation (.declare (.bare .interfaceKind "I" [])),
    .operation (.declare (.bare .classKind "C" ["T"])), .operation (.addInterface ⟨3⟩ ⟨1⟩),
    .operation (.isAssignable ⟨4⟩ ⟨1⟩), .operation (.apply ⟨3⟩ [⟨1⟩])]

theorem interfaces_coherent_askedTooEarly :
    allAllowed askedTooEarly .fresh ∧ strays askedTooEarly .fresh = [⟨4⟩] ∧
      (interfaces ⟨3⟩ (runAll askedTooEarly .fresh)).1 =
        (computeInterfaces ⟨3⟩ (runAll askedTooEarly .fresh)).1 := by
  have hallowed : allAllowed askedTooEarly .fresh := by cbv
  have hstrays : strays askedTooEarly .fresh = [⟨4⟩] := by cbv
  refine ⟨hallowed, hstrays, ?_⟩
  refine (interfaces_coherent askedTooEarly hallowed ⟨3⟩).resolve_right fun h => ?_
  rw [hstrays] at h
  simp at h

/-- The interfaces of a handle that was not known when they were first asked for are not those that
would be worked out once it is. -/
theorem not_forall_interfaces_coherent :
    ¬ ∀ steps ty, (interfaces ty (runAll steps .fresh)).1 =
      (computeInterfaces ty (runAll steps .fresh)).1 := by
  intro h
  have hrecorded : (interfaces ⟨4⟩ (runAll askedTooEarly .fresh)).1 = [] := by cbv
  have hcomputed : (computeInterfaces ⟨4⟩ (runAll askedTooEarly .fresh)).1 = [⟨1⟩] := by cbv
  have hsame := h askedTooEarly ⟨4⟩
  rw [hrecorded, hcomputed] at hsame
  cases hsame

end Step

end Subtyping
