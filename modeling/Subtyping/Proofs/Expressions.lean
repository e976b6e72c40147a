import Subtyping.Proofs.Building
import Subtyping.TypeExpr.Resolve

/-!
# What expressions stand for

An expression stands for a tree (`Universe.denote`), and a tree has a text (`Catalog.text`); both are
a matter of the declarations alone. To resolve an expression is to find, or to add, the handle of
its tree, and it fails exactly if there is no such tree (`TypeExpr.resolve_gives`). A handle is
written as its tree is (`Universe.Consistent.display_of_reads`).
-/

namespace Subtyping

open UniverseM

/-! ## Work that may fail -/

section Gives

variable {ε α β γ δ : Type} {u : Universe} {R : Universe → α → γ → Prop}
  {R' : Universe → β → δ → Prop}

/-- Work begun on `u` makes the universe grow. It succeeds if and only if there is something to be
given, and then gives what corresponds to it. -/
def Gives (R : Universe → α → γ → Prop) (u : Universe) (x : ExceptT ε UniverseM α) (t : Option γ) :
    Prop :=
  Ensures u x.run fun r v => Option.Rel (R v) r.toOption t

namespace Gives

theorem pure (hu : u.Consistent) {a : α} {t : γ} (h : R u a t) :
    Gives R u (pure a : ExceptT ε UniverseM α) (some t) :=
  Ensures.pure hu (.some h)

theorem fail (hu : u.Consistent) (e : ε) : Gives R u (throw e : ExceptT ε UniverseM α) none :=
  Ensures.pure hu .none

theorem fail_bind (hu : u.Consistent) (e : ε) (k : β → ExceptT ε UniverseM α) :
    Gives R u (throw e >>= k) none :=
  Ensures.pure hu .none

theorem bind {x : ExceptT ε UniverseM α} {f : α → ExceptT ε UniverseM β} {t : Option γ}
    {g : γ → Option δ} (hx : Gives R u x t)
    (hf : ∀ a c v, u.Grows v → R v a c → Gives R' v (f a) (g c)) :
    Gives R' u (x >>= f) (t.bind g) := by
  rw [Gives, ExceptT.run_bind]
  refine Ensures.bind hx fun r v hv hr => ?_
  cases r with
  | ok a =>
    cases hr with
    | some h => exact hf a _ v hv h
  | error e =>
    cases hr with
    | none => exact Ensures.pure hv.after .none

theorem map {x : ExceptT ε UniverseM α} {f : α → β} {t : Option γ} {g : γ → δ} (hx : Gives R u x t)
    (h : ∀ a c v, u.Grows v → R v a c → R' v (f a) (g c)) : Gives R' u (f <$> x) (t.map g) := by
  rw [map_eq_pure_bind, Option.map_eq_bind]
  exact bind hx fun a c v hv hr => .pure hv.after (h a c v hv hr)

theorem imp {R' : Universe → α → γ → Prop} {x : ExceptT ε UniverseM α} {t : Option γ}
    (hx : Gives R u x t) (h : ∀ v a c, t = some c → R v a c → R' v a c) : Gives R' u x t := by
  refine Ensures.imp hx fun r v _ hr => ?_
  cases r with
  | ok a =>
    cases hr with
    | some hr => exact .some (h v a _ rfl hr)
  | error e =>
    cases hr with
    | none => exact .none

theorem view {f : Universe → β} {k : β → Attempt α} {t : Option γ} (h : Gives R u (k (f u)) t) :
    Gives R u (Attempt.view f >>= k) t :=
  h

/-- Work that cannot fail. -/
theorem lift {x : UniverseM α} {t : γ} (hx : Ensures u x fun a v => R v a t) :
    Gives R u (liftM x : ExceptT ε UniverseM α) (some t) :=
  hx.bind fun _ _ hv hr => Ensures.pure hv.after (.some hr)

/-- Work on each member of a list, when the results stay what they are as the universe grows. -/
theorem mapM {f : β → ExceptT ε UniverseM α} {g : β → Option γ} {l : List β} (hu : u.Consistent)
    (hR : ∀ {v w a c}, v.Grows w → R v a c → R w a c)
    (hf : ∀ b ∈ l, ∀ v, u.Grows v → Gives R v (f b) (g b)) :
    Gives (fun v => List.Forall₂ (R v)) u (l.mapM f) (l.mapM g) := by
  induction l generalizing u with
  | nil => exact .pure hu .nil
  | cons b l ih =>
    rw [List.mapM_cons, List.mapM_cons]
    refine bind (hf b List.mem_cons_self u (.refl hu)) fun a c v hv hr => ?_
    have hrest : ∀ b ∈ l, ∀ w, v.Grows w → Gives R w (f b) (g b) := fun b hb w hw =>
      hf b (List.mem_cons_of_mem _ hb) w (hv.trans hw)
    exact bind (ih hv.after hrest) fun as cs w hw hrs => .pure hw.after (.cons (hR hw hr) hrs)

theorem mapError {ε' : Type} {x : ExceptT ε UniverseM α} {t : Option γ} (h : Gives R u x t)
    (f : ε → ε') :
    Gives R u (ExceptT.mk (do return (← x.run).mapError f) : ExceptT ε' UniverseM α) t := by
  refine Ensures.bind h fun r v hv hr => Ensures.pure hv.after ?_
  cases r <;> exact hr

theorem within {x : Attempt α} {t : Option γ} (h : Gives R u x t) (context : Context) :
    Gives R u (Attempt.within context x) t :=
  h.mapError _

theorem ofDeclaring {x : Declaring α} {t : Option γ} (h : Gives R u x t) :
    Gives R u (Attempt.ofDeclaring x) t :=
  h.mapError _

/-- What a check allows, it gives without a change. -/
theorem require (hu : u.Consistent) (f : Universe → Except Universe.Error α) :
    Gives (fun v a a' => v = u ∧ f u = .ok a ∧ a' = a) u (Declaring.require f) (f u).toOption := by
  intro j
  refine ⟨.refl hu, ?_⟩
  show Option.Rel _ (f u).toOption (f u).toOption
  cases hf : f u with
  | error e => exact .none
  | ok a => exact .some ⟨rfl, rfl, rfl⟩

/-- A shape that is allowed becomes a type. -/
theorem intern {f : Universe → Except Universe.Error Shape} {t : Option Ty} (hu : u.Consistent)
    (h : Option.Rel (fun shape t => u.Fits shape ∧
      ∀ v ty, u.Grows v → v.shape? ty = some shape → v.Reads ty t) (f u).toOption t) :
    Gives u.Gains u (Declaring.require f >>= fun shape => liftM (UniverseM.intern shape)) t := by
  intro j
  rw [Declaring.run_require_bind]
  cases hf : f u with
  | error e =>
    rw [hf] at h
    cases h
    exact ⟨.refl hu, .none⟩
  | ok shape =>
    rw [hf] at h
    cases h with
    | @some _ t h =>
      have hx : Ensures u (liftM (UniverseM.intern shape) : Declaring Handle).run fun r v =>
          Option.Rel (u.Gains v) r.toOption (some t) :=
        (intern_gains hu h.1).map fun ty v hv hty => .some (hty.2 t (h.2 v ty hv hty.1))
      exact hx j

theorem exists_of_eq_ok {x : ExceptT ε UniverseM α} {t : Option γ} (hx : Gives R u x t) {j : Journal}
    {a : α} (h : (x.run ⟨u, j⟩).1 = .ok a) : ∃ c, t = some c ∧ R (x.run ⟨u, j⟩).2.univ a c := by
  have hrel := (hx j).2
  rw [h] at hrel
  cases hrel with
  | some hr => exact ⟨_, rfl, hr⟩

theorem exists_eq_ok {x : ExceptT ε UniverseM α} {c : γ} (hx : Gives R u x (some c)) (j : Journal) :
    ∃ a, (x.run ⟨u, j⟩).1 = .ok a ∧ R (x.run ⟨u, j⟩).2.univ a c := by
  have hrel := (hx j).2
  cases hrun : (x.run ⟨u, j⟩).1 with
  | error e =>
    rw [hrun] at hrel
    cases hrel
  | ok a =>
    rw [hrun] at hrel
    cases hrel with
    | some hr => exact ⟨a, rfl, hr⟩

end Gives

end Gives

/-! ## The meaning of expressions -/

namespace Universe

/-- The type that is declared under a name. -/
def named? (u : Universe) (name : String) : Option Ty :=
  (u.lookup name).map u.typeAt

/-- The parameter of a declaration that has a name. -/
def paramNamed? (u : Universe) (name : String) (owner : DeclId) : Option Ty :=
  (u.catalog.get? owner).bind fun d =>
    (d.parameters.findIdx? (·.name == name)).map (Ty.param owner)

/-- The declaration that heads a type with the given arguments, if it takes as many. -/
def applied? (u : Universe) (definition : Ty) (args : List Ty) : Option Ty :=
  definition.head?.bind fun decl => (u.catalog.get? decl).bind fun d =>
    if d.isGeneric && d.arity == args.length then some (.applied decl args) else none

theorem eq_of_applied?_eq_some {u : Universe} {definition t : Ty} {args : List Ty}
    (h : u.applied? definition args = some t) : ∃ decl, t = .applied decl args := by
  obtain ⟨decl, -, h⟩ := Option.bind_eq_some_iff.1 h
  obtain ⟨d, -, h⟩ := Option.bind_eq_some_iff.1 h
  split_ifs at h
  exact ⟨decl, (Option.some.inj h).symm⟩

mutual

/-- The tree that an expression stands for, in the scope of a declaration if there is one. -/
def denote (u : Universe) (scope : Option DeclId) : TypeExpr → Option Ty
  | .name n => (scope.bind (u.paramNamed? n)).or ((u.named? n).bind (Option.guard (!·.isGeneric)))
  | .apply n args => (u.named? n).bind fun definition =>
    (denoteAll u scope args).bind (u.applied? definition)
  | .slots n arity => (u.named? n).bind (Option.guard fun t => t.isGeneric && t.args.length == arity)

def denoteAll (u : Universe) (scope : Option DeclId) : List TypeExpr → Option (List Ty)
  | [] => some []
  | e :: es => (denote u scope e).bind fun t => (denoteAll u scope es).map (t :: ·)

end

/-- The tree that a text stands for. -/
def denoteText (u : Universe) (scope : Option DeclId) (input : String) : Option Ty :=
  (TypeExpr.parse input).toOption.bind (u.denote scope)

variable {u v : Universe} {ty : Handle} {t : Ty} {name : String}

theorem Valid.reads_of_lookup (hu : u.Valid) (h : u.lookup name = some ty) :
    ∃ decl d, u.catalog.get? decl = some d ∧ u.Reads ty (.own decl d.arity) := by
  obtain ⟨decl, -, hown⟩ := Option.bind_eq_some_iff.1 h
  exact ⟨decl, hu.reads_of_ownType? hown⟩

theorem Valid.contains_of_lookup (hu : u.Valid) (h : u.lookup name = some ty) : u.contains ty := by
  obtain ⟨decl, d, -, hr⟩ := hu.reads_of_lookup h
  exact hr.1

namespace Grows

theorem lookup (h : u.Grows v) (name : String) : v.lookup name = u.lookup name := by
  rw [Universe.lookup, Universe.lookup, h.catalog]
  exact congrArg _ (funext h.ownType?)

theorem named? (h : u.Grows v) (hu : u.Valid) (name : String) : v.named? name = u.named? name := by
  rw [Universe.named?, Universe.named?, h.lookup]
  exact Option.map_congr fun ty hty => h.typeAt (hu.contains_of_lookup hty)

theorem head? (h : u.Grows v) (hty : u.contains ty) : v.head? ty = u.head? ty := by
  rw [h.after.head?_of_reads (h.reads (reads_typeAt hty)), h.before.head?_of_reads (reads_typeAt hty)]

end Grows

/-! ## What is allowed, as options -/

theorem toOption_declarationOf (u : Universe) (ty : Handle) :
    (u.declarationOf ty).toOption =
      (u.head? ty).bind fun decl => (u.catalog.get? decl).map fun d => (decl, d) := by
  unfold declarationOf head?
  cases u.shape? ty with
  | none => rfl
  | some shape =>
    simp only [Option.bind_some]
    cases shape.head? with
    | none => rfl
    | some decl =>
      simp only [Option.bind_some]
      cases u.catalog.get? decl <;> rfl

theorem toOption_bind {ε α β : Type} (x : Except ε α) (f : α → Except ε β) :
    (x >>= f).toOption = x.toOption.bind fun a => (f a).toOption := by
  cases x <;> rfl

theorem toOption_applicationShape {definition : Handle} {args : List Handle}
    (hargs : ∀ a ∈ args, u.contains a) :
    (u.applicationShape definition args).toOption =
      (u.head? definition).bind fun decl => (u.catalog.get? decl).bind fun d =>
        if d.isGeneric && d.arity == args.length then some (.applied decl args) else none := by
  have hknown : args.find? (!u.contains ·) = none := by
    rw [List.find?_eq_none]
    intro a ha
    simp [hargs a ha]
  rw [applicationShape, toOption_bind, toOption_declarationOf]
  cases u.head? definition with
  | none => rfl
  | some decl =>
    simp only [Option.bind_some]
    cases u.catalog.get? decl with
    | none => rfl
    | some d =>
      simp only [Option.map_some, Option.bind_some, hknown]
      by_cases hg : d.isGeneric = true <;> by_cases hl : d.arity = args.length <;>
        simp [hg, hl, Except.toOption]
      all_goals rfl

theorem toOption_parameterIndex (u : Universe) (ty : Handle) (name : String) :
    (u.parameterIndex ty name).toOption =
      (u.declarationOf ty).toOption.bind fun p => p.2.parameters.findIdx? (·.name == name) := by
  rw [parameterIndex, toOption_bind]
  refine congrArg _ (funext fun p => ?_)
  dsimp only
  cases p.2.parameters.findIdx? (·.name == name) <;> rfl

theorem parameterShape_eq_ok {decl : DeclId} {d : Declaration} {index : Nat}
    (h : u.declarationOf ty = .ok (decl, d)) (hlt : index < d.arity) :
    u.parameterShape ty index = .ok (.param decl index) := by
  have hgen : d.isGeneric = true := by
    have hne : d.parameters ≠ [] := List.ne_nil_of_length_pos (Nat.zero_lt_of_lt hlt)
    simpa [Declaration.isGeneric] using hne
  simp only [parameterShape, h, hgen, hlt, bind, Except.bind, if_true]
  rfl

end Universe

namespace Declaring

variable {u : Universe} {ty : Handle} {t : Ty} {name : String}

theorem parameter_gives (hu : u.Consistent) {decl : DeclId} {d : Declaration} {index : Nat}
    (h : u.declarationOf ty = .ok (decl, d)) (hlt : index < d.arity) :
    Gives u.Gains u (parameter ty index) (some (.param decl index)) := by
  refine Gives.intern hu ?_
  rw [Universe.parameterShape_eq_ok h hlt]
  exact .some ⟨⟨d, (Universe.declarationOf_eq_ok h).2, hlt⟩, fun v ty hv hs => hv.after.reads_param hs⟩

/-- A parameter is found by its name if the declaration that heads the type has one. -/
theorem parameterNamed_gives (hu : u.Consistent) (ty : Handle) (name : String) :
    Gives u.Gains u (parameterNamed ty name) ((u.head? ty).bind (u.paramNamed? name)) := by
  have heq : (u.head? ty).bind (u.paramNamed? name) =
      (u.parameterIndex ty name).toOption.bind fun index =>
        (u.head? ty).map fun decl => Ty.param decl index := by
    rw [Universe.toOption_parameterIndex, Universe.toOption_declarationOf]
    cases u.head? ty with
    | none => rfl
    | some decl =>
      simp only [Option.bind_some, Universe.paramNamed?]
      cases u.catalog.get? decl with
      | none => rfl
      | some d =>
        simp only [Option.bind_some, Option.map_some]
        cases d.parameters.findIdx? (·.name == name) <;> rfl
  rw [heq]
  refine Gives.bind (Gives.require hu _) ?_
  rintro index _ v - ⟨rfl, hindex, rfl⟩
  have hfound := congrArg Except.toOption hindex
  rw [Universe.toOption_parameterIndex] at hfound
  obtain ⟨⟨decl, d⟩, hd, hfind⟩ := Option.bind_eq_some_iff.1 hfound
  have hdecl : v.declarationOf ty = .ok (decl, d) := by
    cases hx : v.declarationOf ty with
    | error e => rw [hx] at hd; cases hd
    | ok p => rw [hx] at hd; cases hd; rfl
  rw [(Universe.declarationOf_eq_ok hdecl).1]
  exact parameter_gives hu hdecl (List.findIdx?_eq_some_iff_findIdx_eq.1 hfind).1

/-- Nothing is changed by looking for a parameter in vain. -/
theorem univ_run_parameterNamed {j : Journal}
    (h : ((parameterNamed ty name).run ⟨u, j⟩).1.toOption = none) :
    ((parameterNamed ty name).run ⟨u, j⟩).2.univ = u := by
  rw [parameterNamed, run_require_bind] at h ⊢
  cases hindex : u.parameterIndex ty name with
  | error e => rfl
  | ok index =>
    rw [hindex] at h
    dsimp only [parameter] at h ⊢
    rw [run_require_bind] at h ⊢
    cases hshape : u.parameterShape ty index with
    | error e => rfl
    | ok shape => rw [hshape] at h; cases h

/-- A declaration is applied to known types if it takes as many. -/
theorem apply_gives (hu : u.Consistent) {args : List Handle} {ts : List Ty} (ht : u.Reads ty t)
    (hargs : List.Forall₂ u.Reads args ts) :
    Gives u.Gains u (apply ty args) (u.applied? t ts) := by
  refine Gives.intern hu ?_
  have hknown := (Universe.forall₂_reads_iff.1 hargs).1
  rw [Universe.toOption_applicationShape hknown, hu.head?_of_reads ht, hargs.length_eq,
    Universe.applied?]
  cases t.head? with
  | none => exact .none
  | some decl =>
    rw [Option.bind_some, Option.bind_some]
    cases hd : u.catalog.get? decl with
    | none => exact .none
    | some d =>
      rw [Option.bind_some, Option.bind_some]
      split_ifs with h
      · rw [Bool.and_eq_true, beq_iff_eq] at h
        refine .some ⟨⟨⟨d, hd, h.2.trans hargs.length_eq.symm⟩, ?_, hknown⟩, fun v ty hv hs =>
          hv.after.reads_applied hs (hv.forall₂_reads hargs)⟩
        rintro rfl
        obtain rfl := List.forall₂_nil_left_iff.1 hargs
        rw [Declaration.isGeneric, List.eq_nil_of_length_eq_zero h.2] at h
        exact Bool.false_ne_true h.1
      · exact .none

end Declaring

/-! ## Resolving -/

namespace TypeExpr

open Universe Attempt

variable {u v : Universe} {scope : Option Handle}

theorem declared_gives (hu : u.Valid) (hv : u.Grows v) (name : String) :
    Gives (fun w ty t => w = v ∧ v.Reads ty t) v (declared name) (u.named? name) := by
  rw [← hv.named? hu, Universe.named?]
  refine Gives.view ?_
  cases h : v.lookup name with
  | none => exact .fail hv.after _
  | some ty => exact .pure hv.after ⟨rfl, reads_typeAt ((hv.valid hu).contains_of_lookup h)⟩

/-- Looking for a parameter in scope never fails. -/
theorem parameterIn?_gives (hv : u.Grows v) (hscope : ∀ ty ∈ scope, u.contains ty) (name : String) :
    Gives (fun w r t => Option.Rel (v.Gains w) r t ∧ (r = none → w = v)) v (parameterIn? scope name)
      (some ((scope.bind u.head?).bind (u.paramNamed? name))) := by
  cases scope with
  | none => exact .pure hv.after ⟨.none, fun _ => rfl⟩
  | some ty =>
    have hnamed := Declaring.parameterNamed_gives hv.after ty name
    rw [hv.head? (hscope ty rfl)] at hnamed
    have hsame : v.paramNamed? name = u.paramNamed? name := by
      unfold paramNamed?
      rw [hv.catalog]
    rw [hsame] at hnamed
    intro j
    obtain ⟨hg, hr⟩ := hnamed j
    exact ⟨hg, .some ⟨hr, Declaring.univ_run_parameterNamed⟩⟩

theorem resolveName_gives (hu : u.Valid) (hv : u.Grows v) (hscope : ∀ ty ∈ scope, u.contains ty)
    (name : String) :
    Gives v.Gains v (resolveName scope name) (u.denote (scope.bind u.head?) (.name name)) := by
  refine Gives.bind (g := fun t => t.or ((u.named? name).bind (Option.guard (!·.isGeneric))))
    (parameterIn?_gives hv hscope name) fun r t w hw hr => ?_
  obtain ⟨hr, hnone⟩ := hr
  cases hr with
  | some h => exact .pure hw.after h
  | none =>
    obtain rfl := hnone rfl
    rw [Option.none_or]
    refine Gives.bind (declared_gives hu hv name) ?_
    rintro ty t _ - ⟨rfl, ht⟩
    refine Gives.view ?_
    rw [hw.after.isGeneric_of_reads ht, Option.guard]
    cases t.isGeneric with
    | true => exact Gives.view (.fail_bind hw.after _ _)
    | false => exact .pure hw.after ht.gains

theorem resolveSlots_gives (hu : u.Valid) (hv : u.Grows v) (name : String) (arity : Nat) :
    Gives v.Gains v (resolveSlots name arity)
      (u.denote (scope.bind u.head?) (.slots name arity)) := by
  rw [denote]
  refine Gives.bind (declared_gives hu hv name) ?_
  rintro ty t _ - ⟨rfl, ht⟩
  refine Gives.view (Gives.view ?_)
  rw [hv.after.isGeneric_of_reads ht, (hv.after.arguments_of_reads ht).length_eq, Option.guard]
  cases t.isGeneric && t.args.length == arity with
  | true => exact .pure hv.after ht.gains
  | false => exact .fail_bind hv.after _ _

mutual

/-- An expression resolves to the handle of the tree that it stands for. -/
theorem resolve_gives (hu : u.Valid) (hscope : ∀ ty ∈ scope, u.contains ty) :
    ∀ (e : TypeExpr) {v : Universe}, u.Grows v →
      Gives v.Gains v (resolve scope e) (u.denote (scope.bind u.head?) e)
  | .name n, _, hv => by
    rw [resolve]
    exact resolveName_gives hu hv hscope n
  | .slots n arity, _, hv => by
    rw [resolve]
    exact resolveSlots_gives hu hv n arity
  | .apply n args, _, hv => by
    rw [resolve, denote]
    refine Gives.bind (declared_gives hu hv n) ?_
    rintro ty t v - ⟨rfl, ht⟩
    refine Gives.bind (resolveAll_gives hu hscope args hv) fun tys ts w hw hts => ?_
    have hsame : u.applied? = w.applied? := by
      unfold applied?
      rw [(hv.trans hw).catalog]
    rw [hsame]
    have happly := Declaring.apply_gives hw.after (hw.reads ht) hts.reads
    refine ((happly.imp fun w' ty' t' happ h => ?_).ofDeclaring).within _
    obtain ⟨decl, rfl⟩ := eq_of_applied?_eq_some happ
    exact hts.applied h

theorem resolveAll_gives (hu : u.Valid) (hscope : ∀ ty ∈ scope, u.contains ty) :
    ∀ (es : List TypeExpr) {v : Universe}, u.Grows v →
      Gives v.GainsAll v (resolveAll scope es) (u.denoteAll (scope.bind u.head?) es)
  | [], _, hv => by
    rw [resolveAll, denoteAll]
    exact .pure hv.after (.nil _)
  | e :: es, _, hv => by
    rw [resolveAll, denoteAll]
    refine Gives.bind (resolve_gives hu hscope e hv) fun ty t w hw ht => ?_
    rw [Option.map_eq_bind]
    refine Gives.bind (resolveAll_gives hu hscope es (hv.trans hw)) fun tys ts w' hw' hts => ?_
    exact .pure hw'.after (ht.cons hw' hts)

end

theorem resolveText_gives (hu : u.Valid) (hscope : ∀ ty ∈ scope, u.contains ty) (hv : u.Grows v)
    (input : String) :
    Gives v.Gains v (resolveText scope input) (u.denoteText (scope.bind u.head?) input) := by
  rw [resolveText, denoteText]
  cases parse input with
  | ok e => exact resolve_gives hu hscope e hv
  | error e => exact .fail hv.after _

end TypeExpr

/-! ## Types as text -/

namespace Catalog

/-- The name of a declaration. -/
def nameOf (c : Catalog) (decl : DeclId) : String :=
  ((c.get? decl).map (·.name)).getD ""

/-- The name of a parameter. -/
def paramNameOf (c : Catalog) (owner : DeclId) (index : Nat) : String :=
  (((c.get? owner).bind fun d => d.parameters[index]?).map (·.name)).getD ""

/-- The text of a tree, cut off below the given number of levels. -/
def textWithin (c : Catalog) : (levels : Nat) → (outermost : Bool) → Ty → String
  | 0, _, _ => "…"
  | _ + 1, _, .plain decl => c.nameOf decl
  | _ + 1, _, .param owner index => c.paramNameOf owner index
  | levels + 1, outermost, .applied decl args =>
    let inside :=
      if outermost && Ty.applied decl args == .own decl args.length then
        String.ofList (List.replicate (args.length - 1) ',')
      else
        ", ".intercalate (args.map (c.textWithin levels false))
    c.nameOf decl ++ "<" ++ inside ++ ">"

/-- The text of a tree. -/
def text (c : Catalog) (t : Ty) : String :=
  c.textWithin Universe.displayLevels true t

end Catalog

namespace Universe

variable {u : Universe} {ty : Handle} {t : Ty}

theorem headName_eq {decl : DeclId} {d : Declaration} (hd : u.catalog.get? decl = some d) :
    u.headName ty decl = u.catalog.nameOf decl := by
  rw [headName, Catalog.nameOf, hd]
  rfl

/-- A type is an open definition exactly if it reads as one. -/
theorem Consistent.ownType?_beq (hu : u.Consistent) (ho : u.Owned) {decl : DeclId} {ts : List Ty}
    (h : u.Reads ty (.applied decl ts)) :
    (u.ownType? decl == some ty) = (Ty.applied decl ts == .own decl ts.length) := by
  obtain ⟨d, hd, harity, -⟩ := hu.exists_catalog_of_reads h
  obtain ⟨own, hown, hr⟩ := ho hd
  rw [harity] at hr
  rw [hown, Bool.eq_iff_iff, beq_iff_eq, beq_iff_eq, Option.some.injEq, hu.eq_iff_of_reads hr h,
    eq_comm]

theorem Consistent.displayWithin_of_reads (hu : u.Consistent) (ho : u.Owned) (h : u.Reads ty t)
    (levels : Nat) (outermost : Bool) :
    u.displayWithin levels outermost ty = u.catalog.textWithin levels outermost t := by
  induction levels generalizing ty t outermost with
  | zero => rfl
  | succ levels ih =>
    cases t with
    | plain decl =>
      have hs := hu.shape?_of_reads_plain h
      obtain ⟨d, hd, -⟩ := hu.fits hs
      simp only [displayWithin, hs, Catalog.textWithin, headName_eq hd]
    | param owner index =>
      have hs := hu.shape?_of_reads_param h
      obtain ⟨d, hd, hlt⟩ := hu.fits hs
      have hp : d.parameters[index]? = some d.parameters[index] := List.getElem?_eq_getElem hlt
      simp only [displayWithin, hs, Catalog.textWithin, parameter?, Catalog.paramNameOf, hd,
        Option.bind_some, hp, Option.map_some, Option.getD_some]
    | applied decl ts =>
      obtain ⟨args, hs, hargs⟩ := hu.shape?_of_reads_applied h
      obtain ⟨d, hd, -⟩ := hu.exists_catalog_of_reads h
      have hmap : args.map (u.displayWithin levels false) =
          ts.map (u.catalog.textWithin levels false) := by
        clear hs h
        induction hargs with
        | nil => rfl
        | cons hab _ ih' => rw [List.map_cons, List.map_cons, ih hab, ih']
      simp only [displayWithin, hs, Catalog.textWithin, headName_eq hd, hu.ownType?_beq ho h, hmap,
        hargs.length_eq]

/-- A handle is written as its tree is. -/
theorem Consistent.display_of_reads (hu : u.Consistent) (ho : u.Owned) (h : u.Reads ty t) :
    u.display ty = u.catalog.text t :=
  hu.displayWithin_of_reads ho h _ _

end Universe

end Subtyping
