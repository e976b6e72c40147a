import Subtyping.Proofs.Steps

/-!
# Parameters inside a type

`u.Mentions ty owner index` says that a parameter occurs in a type. All parameters in a type can be
found without any bound on the depth, by looking at one type after the other and at the arguments of
each (`Universe.occurrencesIn`). In a grounded universe arguments are older than what they are arguments
of, so this comes to an end (`Universe.Grounded.exists_exhausts`) and finds what occurs; the bounded
walk of `Universe.anyOwner` sees the same parameters (`Universe.Grounded.anyOwner_iff`).

A type that is an argument of itself would break all this. It comes about when an argument is put for a
parameter before it is known (`Step.selfContaining`).
-/

namespace Subtyping

namespace Universe

variable {u : Universe} {ty : Handle} {owner : DeclId} {index : Nat}

/-- A parameter occurs in a type. -/
inductive Mentions (u : Universe) : Handle → DeclId → Nat → Prop where
  | param {ty : Handle} {owner : DeclId} {index : Nat} (h : u.shape? ty = some (.param owner index)) :
      Mentions u ty owner index
  | arg {ty arg : Handle} {decl owner : DeclId} {args : List Handle} {index : Nat}
      (h : u.shape? ty = some (.applied decl args)) (harg : arg ∈ args)
      (hm : Mentions u arg owner index) : Mentions u ty owner index

theorem mentions_of_param {o : DeclId} {i : Nat} (h : u.shape? ty = some (.param o i)) :
    u.Mentions ty owner index ↔ (owner, index) = (o, i) := by
  constructor
  · intro hm
    cases hm with
    | param h' => cases h.symm.trans h'; rfl
    | arg h' => cases h.symm.trans h'
  · rintro ⟨⟩
    exact .param h

theorem mentions_of_applied {decl : DeclId} {args : List Handle}
    (h : u.shape? ty = some (.applied decl args)) :
    u.Mentions ty owner index ↔ ∃ arg ∈ args, u.Mentions arg owner index := by
  constructor
  · intro hm
    cases hm with
    | param h' => cases h.symm.trans h'
    | arg h' harg hm => cases h.symm.trans h'; exact ⟨_, harg, hm⟩
  · rintro ⟨arg, harg, hm⟩
    exact .arg h harg hm

theorem not_mentions_of_plain {decl : DeclId} (h : u.shape? ty = some (.plain decl)) :
    ¬ u.Mentions ty owner index := by
  intro hm
  cases hm with
  | param h' => cases h.symm.trans h'
  | arg h' => cases h.symm.trans h'

theorem not_mentions_of_unknown (h : u.shape? ty = none) : ¬ u.Mentions ty owner index := by
  intro hm
  cases hm with
  | param h' => cases h.symm.trans h'
  | arg h' => cases h.symm.trans h'

/-! ## The bounded walk -/

/-- No type is nested more deeply than its number. -/
theorem anyOwnerWithin_iff (hu : u.Grounded) (p : DeclId → Bool) {levels : Nat}
    (hl : ty.num ≤ levels) :
    u.anyOwnerWithin p levels ty = true ↔ ∃ owner index, u.Mentions ty owner index ∧ p owner := by
  induction levels generalizing ty with
  | zero =>
    have hnone : u.shape? ty = none := by
      cases hs : u.shape? ty with
      | none => rfl
      | some shape =>
        have := TypeTable.num_pos_of_shape? hs
        omega
    simp [anyOwnerWithin, not_mentions_of_unknown hnone]
  | succ n ih =>
    cases hs : u.shape? ty with
    | none => simp [anyOwnerWithin, hs, not_mentions_of_unknown hs]
    | some shape =>
      cases shape with
      | plain decl => simp [anyOwnerWithin, hs, not_mentions_of_plain hs]
      | param o i => simp [anyOwnerWithin, hs, mentions_of_param hs]
      | applied decl args =>
        have hargs : ∀ a ∈ args, (u.anyOwnerWithin p n a = true ↔
            ∃ owner index, u.Mentions a owner index ∧ p owner) := by
          intro a ha
          have hlt : a.num < ty.num := (hu.consistent.table.older hs a ha).1
          exact ih (by omega)
        simp only [anyOwnerWithin, hs, List.any_eq_true, mentions_of_applied hs]
        constructor
        · rintro ⟨a, ha, hany⟩
          obtain ⟨owner, index, hm, hp⟩ := (hargs a ha).1 hany
          exact ⟨owner, index, ⟨a, ha, hm⟩, hp⟩
        · rintro ⟨owner, index, ⟨a, ha, hm⟩, hp⟩
          exact ⟨a, ha, (hargs a ha).2 ⟨owner, index, hm, hp⟩⟩

theorem Grounded.anyOwner_iff (hu : u.Grounded) (p : DeclId → Bool) (ty : Handle) :
    u.anyOwner p ty = true ↔ ∃ owner index, u.Mentions ty owner index ∧ p owner := by
  cases hs : u.shape? ty with
  | some shape => exact anyOwnerWithin_iff hu p (TypeTable.num_le_size_of_shape? hs)
  | none =>
    have hfalse : ∀ levels, u.anyOwnerWithin p levels ty = false := by
      intro levels
      cases levels with
      | zero => rfl
      | succ n => simp [anyOwnerWithin, hs]
    simp [anyOwner, hfalse, not_mentions_of_unknown hs]

/-! ## The unbounded walk -/

/-- The parameters in the pending types, the next of which comes first, if looking at one type a round
ends within the given number of rounds. The arguments of a type are looked at next, the last one
first. -/
def occurrencesIn (u : Universe) :
    (rounds : Nat) → (pending : List Handle) → Option (List (DeclId × Nat))
  | _, [] => some []
  | 0, _ :: _ => none
  | rounds + 1, ty :: pending =>
    match u.shape? ty with
    | some (.param owner index) => (u.occurrencesIn rounds pending).map ((owner, index) :: ·)
    | some (.applied _ args) => u.occurrencesIn rounds (args.reverse ++ pending)
    | _ => u.occurrencesIn rounds pending

/-- The given number of rounds deals with the types, and finds what occurs in them. -/
def Exhausts (u : Universe) (rounds : Nat) (tys : List Handle) (found : List (DeclId × Nat)) : Prop :=
  (∀ more pending, u.occurrencesIn (rounds + more) (tys ++ pending) =
    (u.occurrencesIn more pending).map (found ++ ·)) ∧
  ∀ owner index, (owner, index) ∈ found ↔ ∃ ty ∈ tys, u.Mentions ty owner index

/-- What ends on each type ends on a list of types. -/
theorem exists_exhausts_of_forall {tys : List Handle}
    (h : ∀ ty ∈ tys, ∃ rounds found, u.Exhausts rounds [ty] found) :
    ∃ rounds found, u.Exhausts rounds tys found := by
  induction tys with
  | nil => exact ⟨0, [], fun more pending => by simp, fun owner index => by simp⟩
  | cons ty tys ih =>
    obtain ⟨n, found, hrun, hfound⟩ := h ty List.mem_cons_self
    obtain ⟨m, rest, hrun', hrest⟩ := ih fun ty' h' => h ty' (List.mem_cons_of_mem _ h')
    refine ⟨n + m, found ++ rest, fun more pending => ?_, fun owner index => ?_⟩
    · have hfirst := hrun (m + more) (tys ++ pending)
      rw [List.singleton_append] at hfirst
      rw [Nat.add_assoc, List.cons_append, hfirst, hrun', Option.map_map]
      congr 1
      funext more
      exact (List.append_assoc _ _ _).symm
    · rw [List.mem_append, hfound, hrest]
      simp

/-- Looking at one type after the other comes to an end, since arguments are older. -/
theorem Grounded.exists_exhausts (hu : u.Grounded) (ty : Handle) :
    ∃ rounds found, u.Exhausts rounds [ty] found := by
  generalize hn : ty.num = n
  induction n using Nat.strongRecOn generalizing ty with
  | _ n ih =>
    cases hs : u.shape? ty with
    | none =>
      refine ⟨1, [], fun more pending => ?_, fun owner index => ?_⟩
      · simp [Nat.add_comm 1, occurrencesIn, hs]
      · simp [not_mentions_of_unknown hs]
    | some shape =>
      cases shape with
      | plain decl =>
        refine ⟨1, [], fun more pending => ?_, fun owner index => ?_⟩
        · simp [Nat.add_comm 1, occurrencesIn, hs]
        · simp [not_mentions_of_plain hs]
      | param o i =>
        refine ⟨1, [(o, i)], fun more pending => ?_, fun owner index => ?_⟩
        · simp [Nat.add_comm 1, occurrencesIn, hs]
        · simp [mentions_of_param hs]
      | applied decl args =>
        have hargs : ∀ a ∈ args.reverse, ∃ rounds found, u.Exhausts rounds [a] found := by
          intro a ha
          have hlt : a.num < ty.num := (hu.consistent.table.older hs a (List.mem_reverse.1 ha)).1
          exact ih a.num (by omega) a rfl
        obtain ⟨m, found, hrun, hfound⟩ := exists_exhausts_of_forall hargs
        refine ⟨m + 1, found, fun more pending => ?_, fun owner index => ?_⟩
        · rw [Nat.add_right_comm, List.singleton_append, occurrencesIn]
          simp only [hs]
          exact hrun more pending
        · rw [hfound]
          simp [mentions_of_applied hs]

end Universe

namespace Step

open Universe

/-- However a universe is used, as long as the arguments put for parameters are known: arguments are
known and older than what they are arguments of, and looking for the parameters in any type at all comes
to an end, with the parameters that checks of scope and openness see. -/
theorem types_wellFounded (steps : List Step) (h : allAllowed steps .fresh) :
    let u := (runAll steps .fresh).univ
    (∀ ty decl args, u.shape? ty = some (.applied decl args) →
      ∀ a ∈ args, u.contains a ∧ a.num < ty.num) ∧
    ∀ ty, ∃ rounds found, (∀ more, u.occurrencesIn (rounds + more) [ty] = some found) ∧
      (∀ owner index, (owner, index) ∈ found ↔ u.Mentions ty owner index) ∧
      (∀ p, u.anyOwner p ty = found.any fun x => p x.1) ∧
      u.isOpen ty = !found.isEmpty := by
  intro u
  have hu : u.Grounded := grounded_runAll steps h
  refine ⟨fun ty decl args hs a ha => ?_, fun ty => ?_⟩
  · obtain ⟨hlt, hknown⟩ := hu.consistent.table.older hs a ha
    exact ⟨hknown, hlt⟩
  · obtain ⟨rounds, found, hrun, hfound⟩ := hu.exists_exhausts ty
    have hmem : ∀ owner index, (owner, index) ∈ found ↔ u.Mentions ty owner index :=
      fun owner index => by simpa using hfound owner index
    have hany : ∀ p, u.anyOwner p ty = found.any fun x => p x.1 := by
      intro p
      rw [Bool.eq_iff_iff, hu.anyOwner_iff, List.any_eq_true]
      simp [hmem]
    refine ⟨rounds, found, fun more => ?_, hmem, hany, ?_⟩
    · have hend := hrun more []
      simpa [occurrencesIn] using hend
    · rw [isOpen, hany]
      cases found <;> simp

/-- A type `Box<X>` is made, after the supertypes of a handle that is not known yet were asked for. -/
def boxing : List Step :=
  [.operation (.declare (.bare .classKind "Box" ["T"])), .operation (.interfaces ⟨9⟩),
    .operation (.declare (.bare .classKind "X" [])), .operation (.instantiate ⟨2⟩ ⟨1⟩ [⟨3⟩])]

theorem types_wellFounded_boxing :
    allAllowed boxing .fresh ∧
      (runAll boxing .fresh).univ.shape? ⟨4⟩ = some (.applied ⟨1⟩ [⟨3⟩]) ∧
      (runAll boxing .fresh).univ.contains ⟨3⟩ ∧
      ∃ rounds found, ∀ more,
        (runAll boxing .fresh).univ.occurrencesIn (rounds + more) [⟨2⟩] = some found := by
  have hallowed : allAllowed boxing .fresh := by cbv
  have hshape : (runAll boxing .fresh).univ.shape? ⟨4⟩ = some (.applied ⟨1⟩ [⟨3⟩]) := by cbv
  obtain ⟨holder, hends⟩ := types_wellFounded boxing hallowed
  obtain ⟨rounds, found, hrun, -⟩ := hends ⟨2⟩
  exact ⟨hallowed, hshape, (holder ⟨4⟩ ⟨1⟩ [⟨3⟩] hshape ⟨3⟩ (by simp)).1, rounds, found, hrun⟩

/-! ## A type that contains itself -/

/-- The next handle is put for the parameter of `Box<T>` before it is known. -/
def selfContaining : List Step :=
  [.operation (.declare (.bare .classKind "Box" ["T"])), .operation (.instantiate ⟨2⟩ ⟨1⟩ [⟨3⟩])]

theorem shape?_selfContaining :
    (runAll selfContaining .fresh).univ.shape? ⟨3⟩ = some (.applied ⟨1⟩ [⟨3⟩]) := by
  cbv

/-- Looking for the parameters in a type whose only argument is itself does not end. -/
theorem occurrencesIn_eq_none_of_self {u : Universe} {ty : Handle} {decl : DeclId}
    (h : u.shape? ty = some (.applied decl [ty])) (rounds : Nat) :
    u.occurrencesIn rounds [ty] = none := by
  induction rounds with
  | zero => rfl
  | succ n ih =>
    rw [occurrencesIn]
    simpa only [h, List.reverse_singleton, List.append_nil] using ih

theorem not_forall_types_wellFounded :
    (¬ ∀ steps ty decl args,
      (runAll steps .fresh).univ.shape? ty = some (.applied decl args) →
        ∀ a ∈ args, (runAll steps .fresh).univ.contains a ∧ a.num < ty.num) ∧
    ¬ ∀ steps ty, ∃ rounds, ((runAll steps .fresh).univ.occurrencesIn rounds [ty]).isSome := by
  constructor
  · intro h
    obtain ⟨-, hlt⟩ := h selfContaining ⟨3⟩ ⟨1⟩ [⟨3⟩] shape?_selfContaining ⟨3⟩ (by simp)
    exact Nat.lt_irrefl _ hlt
  · intro h
    obtain ⟨rounds, hsome⟩ := h selfContaining ⟨3⟩
    rw [occurrencesIn_eq_none_of_self shape?_selfContaining] at hsome
    cases hsome

end Step

end Subtyping
