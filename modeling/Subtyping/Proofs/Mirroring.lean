import Subtyping.Proofs.Renaming
import Subtyping.TypeExpr.Resolve

/-!
# Work under other numbers

Work on one universe has its image in work on another one that holds the same types under other
numbers: from related states, the two give corresponding results and end in related states
(`Mirrors`). This goes for the whole hierarchy of types, up to native assignability
(`UniverseM.isAssignable_mirrors`), and for work that may fail, which fails in the same way
(`Reflects`), up to resolving the text of a type (`TypeExpr.resolveText_reflects`).
-/

namespace Subtyping

/-- From related states, the second piece of work gives what `f` makes of what the first one gives, and
they end in related states. -/
def Mirrors {σ σ' α α' : Type} (R : σ → σ' → Prop) (f : α → α') (x : StateM σ α)
    (x' : StateM σ' α') : Prop :=
  ∀ s s', R s s' → (x' s').1 = f (x s).1 ∧ R (x s).2 (x' s').2

namespace Mirrors

variable {σ σ' α β α' β' : Type} {R : σ → σ' → Prop} {f : α → α'} {g : β → β'}

theorem pure {a : α} {a' : α'} (h : a' = f a) : Mirrors R f (pure a) (pure a') :=
  fun _ _ hrel => ⟨h, hrel⟩

theorem bind {x : StateM σ α} {x' : StateM σ' α'} {k : α → StateM σ β} {k' : α' → StateM σ' β'}
    (hx : Mirrors R f x x') (hk : ∀ a, Mirrors R g (k a) (k' (f a))) :
    Mirrors R g (x >>= k) (x' >>= k') := by
  intro s s' hrel
  obtain ⟨heq, hrel'⟩ := hx s s' hrel
  have hrest := hk (x s).1 _ _ hrel'
  rw [← heq] at hrest
  exact hrest

theorem map {p : α → β} {p' : α' → β'} {x : StateM σ α} {x' : StateM σ' α'} (hx : Mirrors R f x x')
    (h : ∀ a, p' (f a) = g (p a)) : Mirrors R g (p <$> x) (p' <$> x') :=
  fun s s' hrel => ⟨(congrArg p' (hx s s' hrel).1).trans (h _), (hx s s' hrel).2⟩

theorem ite {p p' : Prop} [Decidable p] [Decidable p'] (hp : p' ↔ p) {x y : StateM σ α}
    {x' y' : StateM σ' α'} (hx : Mirrors R f x x') (hy : Mirrors R f y y') :
    Mirrors R f (if p then x else y) (if p' then x' else y') := by
  by_cases h : p
  · rw [if_pos h, if_pos (hp.2 h)]
    exact hx
  · rw [if_neg h, if_neg (mt hp.1 h)]
    exact hy

theorem mapM {p : β → β'} {x : β → StateM σ α} {x' : β' → StateM σ' α'}
    (h : ∀ b, Mirrors R f (x b) (x' (p b))) (l : List β) :
    Mirrors R (List.map f) (l.mapM x) ((l.map p).mapM x') := by
  induction l with
  | nil => exact .pure rfl
  | cons b l ih =>
    rw [List.map_cons, List.mapM_cons, List.mapM_cons]
    exact .bind (h b) fun _ => .bind ih fun _ => .pure rfl

theorem foldlM {p : β → β'} {x : α → β → StateM σ α} {x' : α' → β' → StateM σ' α'}
    (h : ∀ a b, Mirrors R f (x a b) (x' (f a) (p b))) (l : List β) (a : α) :
    Mirrors R f (l.foldlM x a) ((l.map p).foldlM x' (f a)) := by
  induction l generalizing a with
  | nil => exact .pure rfl
  | cons b l ih =>
    rw [List.map_cons, List.foldlM_cons, List.foldlM_cons]
    exact .bind (h a b) ih

end Mirrors

/-! ## Work on a universe -/

/-- The universes of two chronicles are related. -/
abbrev Renaming.Chronicles {u u' : Universe} (ρ : Renaming u u') (c c' : Chronicle) : Prop :=
  ρ.Relates c.univ c'.univ

namespace UniverseM

variable {u u' : Universe} {ρ : Renaming u u'} {α β α' β' : Type} {f : α → α'} {g : β → β'}

theorem note_mirrors (e e' : Event) : Mirrors ρ.Chronicles id (note e) (note e') :=
  fun _ _ hrel => ⟨rfl, hrel⟩

theorem intern_mirrors {shape : Shape} (hshape : u.Titles shape) :
    Mirrors ρ.Chronicles ρ.type (intern shape) (intern (ρ.shape shape)) :=
  fun _ _ hrel => hrel.intern hshape

/-! ## Putting arguments for parameters -/

theorem nested_bind {x : Nested α} {x' : Nested α'} {k : α → Nested β} {k' : α' → Nested β'}
    (hx : ∀ i, Mirrors ρ.Chronicles (Prod.map f id) (x i) (x' i))
    (hk : ∀ a i, Mirrors ρ.Chronicles (Prod.map g id) (k a i) (k' (f a) i)) (i : DepthGauge) :
    Mirrors ρ.Chronicles (Prod.map g id) ((x >>= k) i) ((x' >>= k') i) := by
  show Mirrors ρ.Chronicles _ (x i >>= fun r => k r.1 r.2) (x' i >>= fun r => k' r.1 r.2)
  exact .bind (hx i) fun r => hk r.1 r.2

theorem nested_lift {x : UniverseM α} {x' : UniverseM α'} (h : Mirrors ρ.Chronicles f x x') (i : DepthGauge) :
    Mirrors ρ.Chronicles (Prod.map f id) ((liftM x : Nested α) i) ((liftM x' : Nested α') i) :=
  fun c c' hrel => ⟨congrArg (·, i) (h c c' hrel).1, (h c c' hrel).2⟩

theorem nested_read {r r' : Universe → α} {k : α → Nested β} {k' : α → Nested β'}
    (h : ∀ v v', ρ.Relates v v' → ∀ i, Mirrors ρ.Chronicles (Prod.map g id) (k (r v) i) (k' (r' v') i))
    (i : DepthGauge) :
    Mirrors ρ.Chronicles (Prod.map g id) (((liftM (view r) : Nested α) >>= k) i)
      (((liftM (view r') : Nested α) >>= k') i) :=
  fun c c' hrel => h c.univ c'.univ hrel i c c' hrel

theorem nested_mapM {p : β → β'} {x : β → Nested α} {x' : β' → Nested α'}
    (h : ∀ b i, Mirrors ρ.Chronicles (Prod.map f id) (x b i) (x' (p b) i)) (l : List β) (i : DepthGauge) :
    Mirrors ρ.Chronicles (Prod.map (List.map f) id) ((l.mapM x) i) (((l.map p).mapM x') i) := by
  induction l generalizing i with
  | nil => exact .pure rfl
  | cons b l ih =>
    rw [List.map_cons, List.mapM_cons, List.mapM_cons]
    exact nested_bind (h b) (fun _ => nested_bind ih fun _ _ => .pure rfl) i

end UniverseM

/-! ## Work that may fail -/

open UniverseM

variable {u u' : Universe} {ρ : Renaming u u'} {α β α' β' ε : Type} {f : α → α'} {g : β → β'}

/-- From related universes, two pieces of work fail in the same way, or the second one gives what `f`
makes of what the first one gives; they end in related universes. -/
def Reflects (ρ : Renaming u u') (f : α → α') (x : ExceptT ε UniverseM α)
    (x' : ExceptT ε UniverseM α') : Prop :=
  Mirrors ρ.Chronicles (Except.map f) x.run x'.run

namespace Reflects

theorem pure {a : α} {a' : α'} (h : a' = f a) :
    Reflects ρ f (pure a : ExceptT ε UniverseM α) (pure a') :=
  Mirrors.pure (congrArg Except.ok h)

theorem fail (e : ε) : Reflects ρ f (throw e : ExceptT ε UniverseM α) (throw e) :=
  Mirrors.pure rfl

theorem bind {x : ExceptT ε UniverseM α} {x' : ExceptT ε UniverseM α'}
    {k : α → ExceptT ε UniverseM β} {k' : α' → ExceptT ε UniverseM β'} (hx : Reflects ρ f x x')
    (hk : ∀ a, Reflects ρ g (k a) (k' (f a))) : Reflects ρ g (x >>= k) (x' >>= k') := by
  rw [Reflects, ExceptT.run_bind, ExceptT.run_bind]
  refine Mirrors.bind hx fun r => ?_
  cases r with
  | ok a => exact hk a
  | error e => exact .pure rfl

theorem lift {x : UniverseM α} {x' : UniverseM α'} (hx : Mirrors ρ.Chronicles f x x') :
    Reflects ρ f (liftM x : ExceptT ε UniverseM α) (liftM x') :=
  fun c c' hrel => ⟨congrArg Except.ok (hx c c' hrel).1, (hx c c' hrel).2⟩

theorem read {r r' : Universe → α} {k : α → Attempt β} {k' : α → Attempt β'}
    (h : ∀ v v', ρ.Relates v v' → Reflects ρ g (k (r v)) (k' (r' v'))) :
    Reflects ρ g (Attempt.view r >>= k) (Attempt.view r' >>= k') :=
  fun c c' hrel => h c.univ c'.univ hrel c c' hrel

theorem mapM {x : β → ExceptT ε UniverseM α} {x' : β → ExceptT ε UniverseM α'}
    (h : ∀ b, Reflects ρ f (x b) (x' b)) (l : List β) :
    Reflects ρ (List.map f) (l.mapM x) (l.mapM x') := by
  induction l with
  | nil => exact .pure rfl
  | cons b l ih =>
    rw [List.mapM_cons, List.mapM_cons]
    exact .bind (h b) fun _ => .bind ih fun _ => .pure rfl

theorem mapError {δ : Type} {x : ExceptT ε UniverseM α} {x' : ExceptT ε UniverseM α'}
    (hx : Reflects ρ f x x') (e : ε → δ) :
    Reflects ρ f (ExceptT.mk (do return (← x.run).mapError e) : ExceptT δ UniverseM α)
      (ExceptT.mk (do return (← x'.run).mapError e)) := by
  refine Mirrors.bind hx fun r => .pure ?_
  cases r <;> rfl

theorem within {x : Attempt α} {x' : Attempt α'} (hx : Reflects ρ f x x') (context : Context) :
    Reflects ρ f (Attempt.within context x) (Attempt.within context x') :=
  hx.mapError _

theorem ofDeclaring {x : Declaring α} {x' : Declaring α'} (hx : Reflects ρ f x x') :
    Reflects ρ f (Attempt.ofDeclaring x) (Attempt.ofDeclaring x') :=
  hx.mapError _

/-- What a check allows on one universe, with other numbers it allows on the other. -/
theorem require {r : Universe → Except Universe.Error α} {r' : Universe → Except Universe.Error α'}
    {k : α → Declaring β} {k' : α' → Declaring β'}
    (h : ∀ v v', ρ.Relates v v' → r' v' = (r v).map f ∧
      ∀ a, r v = .ok a → Reflects ρ g (k a) (k' (f a))) :
    Reflects ρ g (Declaring.require r >>= k) (Declaring.require r' >>= k') := by
  intro c c' hrel
  obtain ⟨heq, hk⟩ := h c.univ c'.univ hrel
  have hrun : (Declaring.require r >>= k).run c = ExceptT.bindCont k (r c.univ) c := rfl
  have hrun' : (Declaring.require r' >>= k').run c' = ExceptT.bindCont k' (r' c'.univ) c' := rfl
  rw [hrun, hrun', heq]
  cases hr : r c.univ with
  | error e => exact ⟨rfl, hrel⟩
  | ok a => exact hk a hr c c' hrel

end Reflects

theorem run_intern_reflects {shape : Shape} (hshape : u.Titles shape) :
    Reflects ρ ρ.type (intern shape : Declaring Handle) (intern (ρ.shape shape) : Declaring Handle) :=
  .lift (intern_mirrors hshape)

theorem parameter_reflects (ty : Handle) (index : Nat) :
    Reflects ρ ρ.type (Declaring.parameter ty index) (Declaring.parameter (ρ.type ty) index) :=
  .require fun _ _ hrel => ⟨hrel.parameterShape ty index, fun _ hshape =>
    run_intern_reflects (hrel.titles (Universe.fits_of_parameterShape hshape))⟩

theorem parameterNamed_reflects (ty : Handle) (name : String) :
    Reflects ρ ρ.type (Declaring.parameterNamed ty name)
      (Declaring.parameterNamed (ρ.type ty) name) := by
  refine .require (f := id) fun v v' hrel => ⟨?_, fun index _ => parameter_reflects ty index⟩
  rw [hrel.parameterIndex]
  cases v.parameterIndex ty name <;> rfl

theorem apply_reflects (ty : Handle) (args : List Handle) :
    Reflects ρ ρ.type (Declaring.apply ty args) (Declaring.apply (ρ.type ty) (args.map ρ.type)) :=
  .require fun _ _ hrel => ⟨hrel.applicationShape ty args, fun _ hshape =>
    run_intern_reflects (hrel.titles (Universe.fits_of_applicationShape hshape))⟩

namespace TypeExpr

open Attempt

theorem declared_reflects (name : String) : Reflects ρ ρ.type (declared name) (declared name) := by
  refine .read fun v v' hrel => ?_
  rw [hrel.lookup]
  cases v.lookup name with
  | none => exact .fail _
  | some ty => exact .pure rfl

theorem parameterIn?_reflects (scope : Option Handle) (name : String) :
    Reflects ρ (Option.map ρ.type) (parameterIn? scope name)
      (parameterIn? (scope.map ρ.type) name) := by
  cases scope with
  | none => exact .pure rfl
  | some owner =>
    refine .bind (.lift (parameterNamed_reflects owner name)) fun r => .pure ?_
    cases r <;> rfl

theorem resolveName_reflects (scope : Option Handle) (name : String) :
    Reflects ρ ρ.type (resolveName scope name) (resolveName (scope.map ρ.type) name) := by
  refine .bind (parameterIn?_reflects scope name) fun param => ?_
  cases param with
  | some param => exact .pure rfl
  | none =>
    refine .bind (declared_reflects name) fun ty => .read fun v v' hrel => ?_
    rw [hrel.isGeneric]
    cases v.isGeneric ty with
    | false => exact .pure rfl
    | true =>
      refine .read fun v v' hrel => ?_
      rw [hrel.arguments, List.length_map]
      exact .bind (f := id) (.fail _) fun _ => .pure rfl

theorem resolveSlots_reflects (name : String) (arity : Nat) :
    Reflects ρ ρ.type (resolveSlots name arity) (resolveSlots name arity) := by
  refine .bind (declared_reflects name) fun ty => .read fun v v' hrel => .read fun w w' hrel' => ?_
  rw [hrel.arguments, hrel'.isGeneric, List.length_map]
  cases w.isGeneric ty && (v.arguments ty).length == arity with
  | true => exact .pure rfl
  | false => exact .bind (f := id) (.fail _) fun _ => .pure rfl

mutual

/-- An expression is resolved in the same way under other numbers. -/
theorem resolve_reflects (scope : Option Handle) : ∀ e : TypeExpr,
    Reflects ρ ρ.type (resolve scope e) (resolve (scope.map ρ.type) e)
  | .name n => by
    rw [resolve, resolve]
    exact resolveName_reflects scope n
  | .slots n arity => by
    rw [resolve, resolve]
    exact resolveSlots_reflects n arity
  | .apply n args => by
    rw [resolve, resolve]
    exact .bind (declared_reflects n) fun definition => .bind (resolveAll_reflects scope args)
      fun args => (apply_reflects definition args).ofDeclaring.within _

theorem resolveAll_reflects (scope : Option Handle) : ∀ es : List TypeExpr,
    Reflects ρ (List.map ρ.type) (resolveAll scope es) (resolveAll (scope.map ρ.type) es)
  | [] => by
    rw [resolveAll, resolveAll]
    exact .pure rfl
  | e :: es => by
    rw [resolveAll, resolveAll]
    exact .bind (resolve_reflects scope e) fun _ => .bind (resolveAll_reflects scope es)
      fun _ => .pure rfl

end

end TypeExpr

end Subtyping
