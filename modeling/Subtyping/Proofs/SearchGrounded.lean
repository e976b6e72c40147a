import Subtyping.Proofs.Grounded
import Subtyping.Proofs.Queries

/-!
# Searches in a universe with any closures on record

Whatever verdicts are on record and whatever limits hold, a search makes a grounded universe expand.
Nested questions are about arguments of known types, which are known themselves; so the only handle
whose closure can be put on record while it is unknown is the source of the query
(`Search.check_widens`).
-/

namespace Subtyping

open UniverseM

variable {α β : Type} {A : Handle → Prop}

/-- The arguments of a type are known. -/
theorem Universe.Grounded.contains_of_mem_arguments {u : Universe} (hu : u.Grounded) {ty arg : Handle}
    (h : arg ∈ u.arguments ty) : u.contains arg := by
  unfold Universe.arguments at h
  split at h
  · next decl args hs =>
    obtain ⟨-, -, hknown⟩ : u.dropClosures.Fits (.applied decl args) := hu.consistent.fits hs
    exact hknown arg h
  · cases h

namespace Search

variable {s s' : Search}

/-- Work, begun on `s`, that makes a grounded universe expand. -/
def Widens (A : Handle → Prop) (s : Search) (x : SearchM α) : Prop :=
  s.univ.Grounded → s.univ.Expands A (x s).2.univ

namespace Widens

theorem pure (a : α) : Widens A s (pure a) :=
  .refl

theorem bind {x : SearchM α} {f : α → SearchM β} (hx : Widens A s x)
    (hf : ∀ a s', s.univ.Expands A s'.univ → s'.univ.Grounded → Widens A s' (f a)) :
    Widens A s (x >>= f) := by
  intro hs
  have hg := (hx hs).grounded hs
  exact (hx hs).trans (hf _ _ (hx hs) hg hg)

theorem ite {c : Prop} [Decidable c] {x y : SearchM α} (hx : Widens A s x) (hy : Widens A s y) :
    Widens A s (if c then x else y) := by
  split
  · exact hx
  · exact hy

theorem view {f : Universe → α} {k : α → SearchM β} (h : Widens A s (k (f s.univ))) :
    Widens A s (liftM (view f) >>= k) :=
  h

theorem lift {x : UniverseM α} (h : s.univ.Grounded → s.univ.Expands A (x s.chronicle).2.univ) :
    Widens A s (liftM x : SearchM α) :=
  h

theorem note (e : Event) : Widens A s (liftM (note e) : SearchM Unit) :=
  .refl

end Widens

theorem isAssignable_widens {source : Handle} (target : Handle) (h : s.univ.contains source) :
    Widens A s (liftM (isAssignable source target) : SearchM Bool) :=
  .lift fun hs => isAssignable_expands hs source target fun h' => by simp [h] at h'

/-! ## Answers from the declarations -/

section Nested

variable {nested : Nested SearchM}
  (hnested : ∀ {s source} target, s.univ.contains source → Widens A s (nested source target))
include hnested

theorem meetsBound_widens {arg : Handle} (bound : Handle) (harg : s.univ.contains arg) :
    Widens A s (meetsBound nested arg bound) :=
  .ite (.pure _) (.bind (isAssignable_widens _ harg) fun _ _ h _ =>
    .ite (.pure _) (.bind (hnested bound (h.contains harg)) fun _ _ _ _ => .pure _))

theorem meetsBounds_widens {arg : Handle} (bounds : List Handle) (harg : s.univ.contains arg) :
    Widens A s (meetsBounds nested arg bounds) := by
  induction bounds generalizing s with
  | nil => exact .pure _
  | cons bound bounds ih =>
    exact .bind (meetsBound_widens hnested bound harg) fun _ _ h _ =>
      .ite (ih (h.contains harg)) (.pure _)

theorem matchArgument_widens {arg : Handle} (target : Handle) (harg : s.univ.contains arg) :
    Widens A s (matchArgument nested arg target) := by
  refine .view (.ite (.view ?_) (.ite (.pure _) ?_))
  · exact .bind (meetsBounds_widens hnested _ harg) fun _ _ _ _ => .pure _
  · exact .bind (isAssignable_widens _ harg) fun _ _ h _ =>
      .ite (.pure _) (hnested target (h.contains harg))

theorem matchArguments_widens (pairs : List (Handle × Handle))
    (hargs : ∀ p ∈ pairs, s.univ.contains p.1) : Widens A s (matchArguments nested pairs) := by
  induction pairs generalizing s with
  | nil => exact .pure _
  | cons pair pairs ih =>
    refine .bind (matchArgument_widens hnested _ (hargs pair List.mem_cons_self)) fun matched s' h _ => ?_
    cases matched with
    | none => exact .pure _
    | some matched =>
      have hrest : ∀ p ∈ pairs, s'.univ.contains p.1 :=
        fun p hp => h.contains (hargs p (List.mem_cons_of_mem _ hp))
      refine .bind (ih hrest) fun others _ _ _ => ?_
      cases others with
      | none => exact .pure _
      | some others => exact .pure _

theorem satisfy_widens (candidate target : Handle) : Widens A s (satisfy nested candidate target) := by
  intro hs
  refine Widens.view (.view (.ite ?_ (.pure _))) hs
  have hargs : ∀ p ∈ (s.univ.arguments candidate).zip (s.univ.arguments target),
      s.univ.contains p.1 := fun p hp => hs.contains_of_mem_arguments (List.of_mem_zip hp).1
  refine .bind (matchArguments_widens hnested _ hargs) fun matched s' _ _ => ?_
  cases matched with
  | none => exact .pure _
  | some matched =>
    refine .view ?_
    cases s'.univ.definition? target with
    | none => exact .pure _
    | some definition => exact .lift fun hs' => makeGeneric_expands hs' definition matched

theorem firstSatisfying_widens (definition target : Handle) (candidates : List Handle) :
    Widens A s (firstSatisfying nested definition target candidates) := by
  induction candidates generalizing s with
  | nil => exact .pure _
  | cons candidate candidates ih =>
    refine .view (.ite (.bind (satisfy_widens hnested _ _) fun resolved _ _ _ => ?_) ih)
    cases resolved with
    | none => exact ih
    | some resolved => exact .pure _

omit hnested in
theorem firstWithDefinition_widens (definition origin : Handle) (steps : Nat) (ty : Handle) :
    Widens A s (firstWithDefinition definition origin steps ty) := by
  induction steps generalizing s ty with
  | zero => exact .refl
  | succ steps ih =>
    refine .view (.ite (.pure _) (.bind (.lift fun hs => baseType_expands hs ty) fun base _ _ _ => ?_))
    cases base with
    | none => exact .pure _
    | some base => exact ih base

theorem resolve_widens {source : Handle} (target : Handle)
    (hA : s.univ.contains source = false → A source) : Widens A s (resolve nested source target) := by
  refine .view (.ite (.view ?_) (.view (.ite (.pure _) ?_)))
  · cases s.univ.definition? target with
    | none => exact .pure _
    | some definition =>
      refine .view (.ite ?_ (firstWithDefinition_widens _ _ _ _))
      refine .bind (firstSatisfying_widens hnested _ _ _) fun resolved s' h _ => ?_
      cases resolved with
      | some resolved => exact .pure _
      | none =>
        have hA' : s'.univ.contains source = false → A source := fun h' => hA (h.unknown h')
        exact .bind (.lift fun hs' => interfaces_expands hs' source hA') fun _ _ _ _ =>
          firstSatisfying_widens hnested _ _ _
  · exact .bind (.lift fun hs => isAssignable_expands hs source target hA) fun _ _ _ _ =>
      .ite (.pure _) (.pure _)

end Nested

/-! ## Questions -/

theorem substituteBy_widens {evaluate : Pair → SearchM (Option Handle)} {source : Handle}
    (target : Handle) (he : ∀ {s : Search}, s.univ.contains source →
      Widens A s (evaluate ⟨source, target⟩)) (hs : s.univ.contains source) :
    Widens A s (substituteBy evaluate source target) := by
  refine .ite (.pure _) (.bind Universe.Expands.refl fun found _ h _ => ?_)
  cases found with
  | none => exact he (h.contains hs)
  | some verdict => exact .bind (.note _) fun _ _ _ _ => .pure _

/-- Ending the work on a pair does not touch the universe. -/
theorem univ_settle (pair : Pair) (place before : Nat) (around : Option Nat)
    (computed : Option Handle) (s : Search) :
    (settle pair place around before computed s).2.univ = s.univ := by
  rw [run_settle]
  split_ifs
  · rfl
  · rfl

/-- Nor does a question that is not let in. -/
theorem univ_evaluate_of_ne_entered (levels : Nat) {pair : Pair} {admission : Admission}
    {g : Guard Pair} (h : s.guard.enter pair = (admission, g)) (hne : admission ≠ .entered) :
    (evaluate levels pair s).2.univ = s.univ := by
  cases admission with
  | entered => exact absurd rfl hne
  | cycle =>
    obtain ⟨journal, hrun⟩ := evaluate_of_cycle levels h
    rw [hrun]
  | depthExceeded | stepsExceeded =>
    obtain ⟨journal, hrun⟩ := evaluate_of_refused levels h rfl
    rw [hrun]

theorem evaluate_widens (levels : Nat) {pair : Pair}
    (hA : s.univ.contains pair.source = false → A pair.source) :
    Widens A s (evaluate levels pair) := by
  intro hs
  induction levels generalizing s pair with
  | zero =>
    rcases he : s.guard.enter pair with ⟨admission, g⟩
    by_cases hentered : admission = .entered
    · subst hentered
      rw [evaluate_zero_of_entered he]
      exact .refl hs
    · rw [univ_evaluate_of_ne_entered 0 he hentered]
      exact .refl hs
  | succ levels ih =>
    rcases he : s.guard.enter pair with ⟨admission, g⟩
    by_cases hentered : admission = .entered
    · subst hentered
      rw [evaluate_of_entered levels he]
      have hinner : Widens A { s with guard := g, stack := s.stack.push pair, lowest := none }
          (resolve (substituteBy (evaluate levels)) pair.source pair.target) := by
        refine resolve_widens (fun target hsource => ?_) pair.target hA
        exact substituteBy_widens target (fun h => ih fun h' => by simp [h] at h') hsource
      refine hinner.bind (fun computed s' _ hs' _ => ?_) hs
      rw [univ_settle]
      exact .refl hs'
    · rw [univ_evaluate_of_ne_entered (levels + 1) he hentered]
      exact .refl hs

/-- A query makes a grounded universe expand; only its source may be asked about while unknown. -/
theorem check_widens (source target : Option Handle)
    (hA : ∀ ty ∈ source, s.univ.contains ty = false → A ty) : Widens A s (check source target) := by
  cases source with
  | none => exact .pure _
  | some source =>
    cases target with
    | none => exact .pure _
    | some target =>
      refine .ite (.pure _) (.bind Universe.Expands.refl fun found s' h _ => ?_)
      cases found with
      | some verdict => exact .pure _
      | none =>
        have hA' : s'.univ.contains source = false → A source := fun h' =>
          hA source rfl (h.unknown h')
        exact @evaluate_widens A s' s'.guard.limits.depth ⟨source, target⟩ hA'

end Search

end Subtyping
