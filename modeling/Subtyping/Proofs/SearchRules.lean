import Subtyping.Proofs.Journal
import Subtyping.Substitution.Resolve

/-!
# Going through a search

Answers from the declarations are made of a few kinds of step: questions about the universe, nested
questions, and the refusal to walk on. What relates two ways to answer nested questions and is kept by
sequencing (`Search.Congruence`) therefore relates the answers from the declarations that they lead
to (`Search.Congruence.resolve`).
-/

namespace Subtyping.Search

open UniverseM

theorem run_bind {α β : Type} (x : SearchM α) (f : α → SearchM β) (s : Search) :
    (x >>= f) s = f (x s).1 (x s).2 :=
  rfl

theorem run_view_bind {α β : Type} {f : Universe → α} {k : α → SearchM β} {s : Search} :
    ((liftM (view f) : SearchM α) >>= k) s = k (f s.chronicle.univ) s :=
  rfl

universe v w

variable {m : Type → Type v} [Monad m] [MonadLiftT UniverseM m] [MonadLiftT SearchM m]
  {m' : Type → Type w} [Monad m'] [MonadLiftT UniverseM m'] [MonadLiftT SearchM m']

variable (m m') in
/-- A relation of pieces of work that sequencing keeps, and that relates each step to itself. The work may
be of two kinds. -/
structure Congruence (P : ∀ {α : Type}, m α → m' α → Prop) : Prop where
  pure : ∀ {α : Type} (a : α), P (pure a) (pure a)
  bind : ∀ {α β : Type} {x : m α} {x' : m' α} {f : α → m β} {f' : α → m' β},
    P x x' → (∀ a, P (f a) (f' a)) → P (x >>= f) (x' >>= f')
  lift : ∀ {α : Type} {x : UniverseM α}, Simple x → P (liftM x : m α) (liftM x : m' α)
  refuse : P (liftM refuse : m Unit) (liftM refuse : m' Unit)

namespace Congruence

variable {P : ∀ {α : Type}, m α → m' α → Prop} (hP : Congruence m m' P)
include hP

theorem view_bind {α β : Type} (f : Universe → α) {k : α → m β} {k' : α → m' β}
    (h : ∀ a, P (k a) (k' a)) : P (liftM (view f) >>= k) (liftM (view f) >>= k') :=
  hP.bind (hP.lift (.view f)) h

omit hP in
theorem branch {A : Type v} {B : Type w} {P : A → B → Prop} {c : Prop} [Decidable c] {x y : A}
    {x' y' : B} (hx : P x x') (hy : P y y') : P (if c then x else y) (if c then x' else y') := by
  split
  · exact hx
  · exact hy

theorem firstWithDefinition (definition origin : Handle) (steps : Nat) (ty : Handle) :
    P (firstWithDefinition definition origin steps ty)
      (firstWithDefinition definition origin steps ty) := by
  induction steps generalizing ty with
  | zero =>
    exact hP.bind hP.refuse fun _ => hP.bind (hP.lift (.note rfl)) fun _ => hP.pure _
  | succ steps ih =>
    refine hP.view_bind _ fun _ => branch (hP.pure _) ?_
    refine hP.bind (hP.lift (baseType_simple _)) fun base => ?_
    cases base with
    | none => exact hP.pure _
    | some base => exact ih base

theorem resolveClosed (source target : Handle) :
    P (resolveClosed source target) (resolveClosed source target) :=
  hP.view_bind _ fun _ => branch (hP.pure _)
    (hP.bind (hP.lift (isAssignable_simple _ _)) fun _ => branch (hP.pure _) (hP.pure _))

variable {nested : Nested m} {nested' : Nested m'}
  (h : ∀ source target, P (nested source target) (nested' source target))
include h

theorem meetsBound (arg bound : Handle) :
    P (meetsBound nested arg bound) (meetsBound nested' arg bound) :=
  branch (hP.pure _) (hP.bind (hP.lift (isAssignable_simple _ _)) fun _ =>
    branch (hP.pure _) (hP.bind (h _ _) fun _ => hP.pure _))

theorem meetsBounds (arg : Handle) (bounds : List Handle) :
    P (meetsBounds nested arg bounds) (meetsBounds nested' arg bounds) := by
  induction bounds with
  | nil => exact hP.pure _
  | cons bound bounds ih =>
    exact hP.bind (hP.meetsBound h arg bound) fun _ => branch ih (hP.pure _)

theorem matchArgument (arg target : Handle) :
    P (matchArgument nested arg target) (matchArgument nested' arg target) := by
  refine hP.view_bind _ fun _ => branch (hP.view_bind _ fun bounds => ?_) (branch (hP.pure _) ?_)
  · exact hP.bind (hP.meetsBounds h arg bounds) fun _ => hP.pure _
  · exact hP.bind (hP.lift (isAssignable_simple _ _)) fun _ => branch (hP.pure _) (h _ _)

theorem matchArguments (pairs : List (Handle × Handle)) :
    P (matchArguments nested pairs) (matchArguments nested' pairs) := by
  induction pairs with
  | nil => exact hP.pure _
  | cons pair pairs ih =>
    refine hP.bind (hP.matchArgument h _ _) fun matched => ?_
    cases matched with
    | none => exact hP.pure _
    | some matched =>
      refine hP.bind ih fun others => ?_
      cases others with
      | none => exact hP.pure _
      | some others => exact hP.pure _

theorem satisfy (candidate target : Handle) :
    P (satisfy nested candidate target) (satisfy nested' candidate target) := by
  refine hP.view_bind _ fun args => hP.view_bind _ fun targets => branch ?_ (hP.pure _)
  refine hP.bind (hP.matchArguments h _) fun matched => ?_
  cases matched with
  | none => exact hP.pure _
  | some matched =>
    refine hP.view_bind _ fun definition => ?_
    cases definition with
    | none => exact hP.pure _
    | some definition => exact hP.lift (makeGeneric_simple _ _)

theorem firstSatisfying (definition target : Handle) (candidates : List Handle) :
    P (firstSatisfying nested definition target candidates)
      (firstSatisfying nested' definition target candidates) := by
  induction candidates with
  | nil => exact hP.pure _
  | cons candidate candidates ih =>
    refine hP.view_bind _ fun _ => branch (hP.bind (hP.satisfy h _ _) fun resolved => ?_) ih
    cases resolved with
    | none => exact ih
    | some resolved => exact hP.pure _

theorem resolveInterface (definition source target : Handle) :
    P (resolveInterface nested definition source target)
      (resolveInterface nested' definition source target) := by
  refine hP.bind (hP.firstSatisfying h _ _ _) fun resolved => ?_
  cases resolved with
  | none => exact hP.bind (hP.lift (interfaces_simple _)) fun _ => hP.firstSatisfying h _ _ _
  | some resolved => exact hP.pure _

/-- Related ways to answer nested questions lead to related answers from the declarations. -/
theorem resolve (source target : Handle) :
    P (resolve nested source target) (resolve nested' source target) := by
  refine hP.view_bind _ fun _ => branch (hP.view_bind _ fun definition => ?_)
    (hP.resolveClosed _ _)
  cases definition with
  | none => exact hP.pure _
  | some definition =>
    exact hP.view_bind _ fun _ =>
      branch (hP.resolveInterface h _ _ _) (hP.firstWithDefinition _ _ _ _)

omit hP h in
/-- What holds of all nested questions holds of the answers from the declarations. -/
theorem resolve_of_forall {Q : ∀ {α : Type}, m α → Prop} (hQ : Congruence m m fun x _ => Q x)
    (h : ∀ source target, Q (nested source target)) (source target : Handle) :
    Q (Search.resolve nested source target) := by
  have hresolve := @resolve m _ _ _ m _ _ _ _ hQ nested nested h
  exact hresolve source target

end Congruence

end Subtyping.Search
