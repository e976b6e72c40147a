import Subtyping.Proofs.Hierarchy

/-!
# Work made of simple steps

Questions about the hierarchy are answered by a few kinds of step: something is read off the
declarations and the types, a shape is interned, an event that reports on no question is noted. What all
such steps have and sequencing keeps (`UniverseM.Structural`), all of these questions have, up to the
closure of interfaces worked out anew (`UniverseM.Structural.computeInterfaces`). The closures on
record are neither read nor changed on the way. Replacing parameters inside a type notes nothing before
it is over, so it has what steps without a note have (`UniverseM.Wordless.fill`).

Work is `UniverseM.Simple` if it is made of such steps and of looking closures up and putting them on
record. All work of a search on its universe is, so that what is to hold of it needs to be checked for
each kind of step only.
-/

namespace Subtyping

/-- The event ends the work on a pair, whether its verdict is recorded or withheld. -/
def Event.settles : Event → Bool
  | verdict _ _ | verdictWithheld _ _ _ => true
  | _ => false

/-- The event reports on a question or on a query. -/
def Event.reports : Event → Bool
  | verdictReused _ | limitReached _ _ _ _ | cycleAssumed _ _ | verdictWithheld _ _ _ | verdict _ _
  | queryStarted _ _ _ | queryEnded _ _ _ _ => true
  | _ => false

theorem Event.settles_eq_false {e : Event} (he : e.reports = false) : e.settles = false := by
  cases e with
  | verdict pair r => cases he
  | verdictWithheld pair provisional related => cases he
  | _ => rfl

/-- The same declarations and types with other closures on record. -/
def Universe.withClosures (u : Universe) (closures : Std.HashMap Handle (List Handle)) : Universe :=
  { u with closures }

namespace UniverseM

/-- A property that steps which note nothing have and sequencing keeps. What is read must not depend on
the closures on record. -/
structure Wordless (P : ∀ {α : Type}, UniverseM α → Prop) : Prop where
  pure : ∀ {α : Type} (a : α), P (pure a)
  bind : ∀ {α β : Type} {x : UniverseM α} {f : α → UniverseM β}, P x → (∀ a, P (f a)) → P (x >>= f)
  read : ∀ {α β : Type} {f : Universe → α} {k : α → UniverseM β},
    (∀ u closures, k (f (u.withClosures closures)) = k (f u)) → (∀ a, P (k a)) → P (view f >>= k)
  intern : ∀ shape, P (intern shape)

/-- A property that simple steps have and sequencing keeps. -/
structure Structural (P : ∀ {α : Type}, UniverseM α → Prop) : Prop extends Wordless P where
  note : ∀ {e : Event}, e.reports = false → P (note e)

namespace Wordless

variable {α β : Type} {P : ∀ {α : Type}, UniverseM α → Prop} (hP : Wordless P)
include hP

theorem mapM {f : α → UniverseM β} (hf : ∀ a, P (f a)) (l : List α) : P (l.mapM f) := by
  induction l with
  | nil => exact hP.pure _
  | cons a l ih =>
    rw [List.mapM_cons]
    exact hP.bind (hf a) fun _ => hP.bind ih fun _ => hP.pure _

theorem foldlM {f : β → α → UniverseM β} (hf : ∀ b a, P (f b a)) (l : List α) (b : β) :
    P (l.foldlM f b) := by
  induction l generalizing b with
  | nil => exact hP.pure _
  | cons a l ih =>
    rw [List.foldlM_cons]
    exact hP.bind (hf b a) ih

/-! ## Putting arguments for parameters -/

theorem nested_bind {x : Nested α} {f : α → Nested β} (hx : ∀ g, P (x g))
    (hf : ∀ a g, P (f a g)) (g : DepthGauge) : P ((x >>= f) g) :=
  hP.bind (hx g) fun r => hf r.1 r.2

theorem nested_lift {x : UniverseM α} (hx : P x) (g : DepthGauge) : P ((liftM x : Nested α) g) :=
  hP.bind (f := fun a => Pure.pure (a, g)) hx fun _ => hP.pure _

theorem nested_read {f : Universe → α} {k : α → Nested β}
    (hf : ∀ u closures, f (u.withClosures closures) = f u) (hk : ∀ a g, P (k a g)) (g : DepthGauge) :
    P (((liftM (view f) : Nested α) >>= k) g) :=
  hP.read (f := f) (k := (k · g)) (fun u closures => congrArg (k · g) (hf u closures)) (hk · g)

theorem nested_mapM {f : α → Nested β} (hf : ∀ a g, P (f a g)) (l : List α) (g : DepthGauge) :
    P ((l.mapM f) g) := by
  induction l generalizing g with
  | nil => exact hP.pure _
  | cons a l ih =>
    rw [List.mapM_cons]
    exact hP.nested_bind (hf a) (fun _ => hP.nested_bind ih fun _ _ => hP.pure _) g

theorem fill (owner : DeclId) (args : List Handle) (levels : Nat) (ty : Handle) (g : DepthGauge) :
    P (fill owner args levels ty g) := by
  induction levels generalizing ty g with
  | zero =>
    unfold UniverseM.fill
    refine hP.nested_read (fun _ _ => rfl) (fun shape g => ?_) g
    split
    · exact hP.pure _
    · refine hP.nested_bind (fun _ => hP.pure _) (fun entered g => ?_) g
      cases entered with
      | true => exact hP.pure _
      | false => exact hP.pure _
    · exact hP.pure _
  | succ n ih =>
    unfold UniverseM.fill
    refine hP.nested_read (fun _ _ => rfl) (fun shape g => ?_) g
    split
    · exact hP.pure _
    · refine hP.nested_bind (fun _ => hP.pure _) (fun entered g => ?_) g
      cases entered with
      | true =>
        refine hP.nested_bind (hP.nested_mapM ih _) (fun new => hP.nested_bind (fun _ => hP.pure _)
          fun _ g => ?_) g
        split_ifs
        · exact hP.pure _
        · exact hP.nested_lift (hP.intern _) g
      | false => exact hP.pure _
    · exact hP.pure _

end Wordless

namespace Structural

variable {α : Type} {P : ∀ {α : Type}, UniverseM α → Prop} (hP : Structural P)
include hP

omit hP in
theorem ite {c : Prop} [Decidable c] {x y : UniverseM α} (hx : P x) (hy : P y) :
    P (if c then x else y) := by
  split
  · exact hx
  · exact hy

theorem instantiate (ty : Handle) (owner : DeclId) (args : List Handle) :
    P (instantiate ty owner args) := by
  refine hP.bind (hP.fill _ _ _ _ _) fun r => ?_
  exact ite (hP.bind (hP.note rfl) fun _ => hP.pure _) (hP.pure _)

/-! ## The hierarchy -/

theorem baseType (ty : Handle) : P (baseType ty) := by
  refine hP.read (fun _ _ => rfl) fun u => ?_
  split
  · exact hP.pure _
  · split
    · exact hP.bind (hP.instantiate _ _ _) fun _ => hP.pure _
    · exact hP.pure _
  · exact hP.pure _
  · exact hP.pure _

theorem declaredInterfaces (ty : Handle) : P (declaredInterfaces ty) := by
  refine hP.read (fun _ _ => rfl) fun u => ?_
  split
  · exact hP.pure _
  · exact hP.mapM (fun _ => hP.instantiate _ _ _) _
  · exact hP.pure _
  · exact hP.pure _

theorem chainFrom (origin : Handle) (steps : Nat) (ty : Handle) :
    P (chainFrom origin steps ty) := by
  induction steps generalizing ty with
  | zero => exact hP.bind (hP.note rfl) fun _ => hP.pure _
  | succ n ih =>
    refine hP.bind (hP.baseType ty) fun base => ?_
    cases base with
    | none => exact hP.pure _
    | some base => exact hP.bind (ih base) fun _ => hP.pure _

theorem baseChain (ty : Handle) : P (baseChain ty) :=
  hP.chainFrom ty _ ty

theorem collect (generations : Nat) (seen : List Handle) (interface : Handle) :
    P (collect generations seen interface) := by
  induction generations generalizing seen interface with
  | zero => exact hP.pure _
  | succ n ih =>
    exact ite (hP.pure _) (hP.bind (hP.declaredInterfaces _) fun _ => hP.foldlM ih _ _)

theorem computeInterfaces (ty : Handle) : P (computeInterfaces ty) := by
  refine hP.bind (hP.baseChain _) fun _ => hP.read (fun _ _ => rfl) fun _ => ?_
  exact hP.foldlM (fun _ _ => hP.bind (hP.declaredInterfaces _) fun _ =>
    hP.foldlM (hP.collect _) _ _) _ _

end Structural

/-! ## All simple work -/

/-- Work made of simple steps. -/
inductive Simple : ∀ {α : Type}, UniverseM α → Prop where
  | pure {α : Type} (a : α) : Simple (pure a)
  | bind {α β : Type} {x : UniverseM α} {f : α → UniverseM β} (hx : Simple x)
      (hf : ∀ a, Simple (f a)) : Simple (x >>= f)
  | view {α : Type} (f : Universe → α) : Simple (view f)
  | note {e : Event} (he : e.reports = false) : Simple (note e)
  | intern (shape : Shape) : Simple (intern shape)
  | record (ty : Handle) (closure : List Handle) :
      Simple (modifyUniverse fun u => { u with closures := u.closures.insert ty closure })

theorem Simple.structural : Structural Simple where
  pure := .pure
  bind := .bind
  read _ hk := .bind (.view _) hk
  note := .note
  intern := .intern

theorem Simple.ite {α : Type} {c : Prop} [Decidable c] {x y : UniverseM α} (hx : Simple x)
    (hy : Simple y) : Simple (if c then x else y) :=
  Structural.ite (P := Simple) hx hy

theorem Simple.discard {α : Type} {x : UniverseM α} (hx : Simple x) : Simple (discard x) :=
  .bind hx fun _ => .pure ()

theorem instantiate_simple (ty : Handle) (owner : DeclId) (args : List Handle) :
    Simple (instantiate ty owner args) :=
  Simple.structural.instantiate ty owner args

theorem baseType_simple (ty : Handle) : Simple (baseType ty) :=
  Simple.structural.baseType ty

theorem declaredInterfaces_simple (ty : Handle) : Simple (declaredInterfaces ty) :=
  Simple.structural.declaredInterfaces ty

theorem baseChain_simple (ty : Handle) : Simple (baseChain ty) :=
  Simple.structural.baseChain ty

theorem interfaces_simple (ty : Handle) : Simple (interfaces ty) := by
  refine .bind (.view _) fun closure => ?_
  cases closure with
  | some closure => exact .pure _
  | none =>
    exact .bind (Simple.structural.computeInterfaces ty) fun closure =>
      .bind (.record ty closure) fun _ => .pure _

theorem isAssignable_simple (source target : Handle) : Simple (isAssignable source target) := by
  refine .ite (.pure _) (.bind (.view _) fun kind => ?_)
  split
  · exact .bind (interfaces_simple _) fun _ => .pure _
  · exact .bind (baseChain_simple _) fun _ => .pure _
  · exact .bind (baseChain_simple _) fun _ => .pure _
  · exact .pure _

/-- Work that a check may refuse. -/
theorem require_simple {α β : Type} {f : Universe → Except Universe.Error α} {k : α → Declaring β}
    (hk : ∀ a, Simple (k a).run) : Simple (Declaring.require f >>= k).run := by
  have hrun : (Declaring.require f >>= k).run = view f >>= fun r => ExceptT.bindCont k r := rfl
  rw [hrun]
  refine .bind (.view f) fun r => ?_
  cases r with
  | error e => exact .pure _
  | ok a => exact hk a

theorem run_intern_simple (shape : Shape) : Simple (intern shape : Declaring Handle).run :=
  .bind (.intern shape) fun _ => .pure _

theorem parameter_simple (definition : Handle) (index : Nat) :
    Simple (Declaring.parameter definition index).run :=
  require_simple run_intern_simple

theorem parameterNamed_simple (definition : Handle) (name : String) :
    Simple (Declaring.parameterNamed definition name).run :=
  require_simple fun index => parameter_simple definition index

theorem apply_simple (definition : Handle) (args : List Handle) :
    Simple (Declaring.apply definition args).run :=
  require_simple run_intern_simple

theorem makeGeneric_simple (definition : Handle) (args : List Handle) :
    Simple (makeGeneric definition args) :=
  .bind (.view _) fun _ => .ite (.bind (apply_simple _ _) fun _ => .pure _) (.pure _)

end UniverseM

end Subtyping
