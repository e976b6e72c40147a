import Subtyping.Proofs.SearchGrounded

/-!
# Using a universe step by step

A universe is used in steps: operations on it, and queries of solvers that share it, each with the
verdicts that it has on record. A step may be given any handles, known or not, except that the arguments
put for parameters must be known (`Step.allowed`). `Universe.Evolves` says all that a step can do to a
grounded universe: it expands, it gets one more bare declaration, or a declaration gets a supertype or
bound that the checks let through. Every universe that comes from the empty one by such steps is
grounded (`Step.grounded_runAll`), and what every step keeps holds at the end of every run
(`Step.run_induction`).
-/

namespace Subtyping

open UniverseM

/-! ## Closures play no part in what is allowed -/

namespace Universe

variable {u : Universe}

theorem climbs_dropClosures (u : Universe) (goal : DeclId) (rounds : Nat) :
    u.dropClosures.climbs goal rounds = u.climbs goal rounds := by
  induction rounds with
  | zero => rfl
  | succ n ih =>
    funext frontier seen
    rw [climbs, climbs, ih]
    rfl

theorem inheritsFrom_dropClosures (u : Universe) : u.dropClosures.inheritsFrom = u.inheritsFrom := by
  funext decl ancestor
  exact congrFun (congrFun (u.climbs_dropClosures ancestor _) _) _

end Universe

/-! ## What changes a declaration -/

namespace Declaring

theorem run_setBase (declared base : Handle) (c : Chronicle) :
    (setBase declared base).run c =
      match c.univ.checkBase declared base with
      | .ok decl => (.ok (), { c with univ := (c.univ.withBase decl base).dropClosures })
      | .error e => (.error e, c) := by
  rw [setBase, run_require_bind]
  cases c.univ.checkBase declared base with
  | error e => rfl
  | ok decl => rfl

theorem run_addInterface (declared interface : Handle) (c : Chronicle) :
    (addInterface declared interface).run c =
      match c.univ.checkInterface declared interface with
      | .ok (decl, d) =>
        (.ok (), if interface ∈ d.interfaces then c else
          { c with univ := (c.univ.withInterface decl interface).dropClosures })
      | .error e => (.error e, c) := by
  rw [addInterface, run_require_bind]
  cases c.univ.checkInterface declared interface with
  | error e => rfl
  | ok p =>
    obtain ⟨decl, d⟩ := p
    simp only [List.contains_iff_mem]
    split_ifs
    · rfl
    · rfl

theorem run_addConstraint (param bound : Handle) (c : Chronicle) :
    (addConstraint param bound).run c =
      match c.univ.checkConstraint param bound with
      | .ok (owner, index) =>
        (.ok (), { c with univ := (c.univ.withConstraint owner index bound).dropClosures })
      | .error e => (.error e, c) := by
  rw [addConstraint, run_require_bind]
  cases c.univ.checkConstraint param bound with
  | error e => rfl
  | ok p => rfl

end Declaring

/-- A declaration without supertypes and bounds. -/
structure Declaration.Bare (d : Declaration) : Prop where
  base : d.base = none
  interfaces : d.interfaces = []
  bounds : ∀ p ∈ d.parameters, p.constraints = []

theorem Declaration.bare_stripped (d : Declaration) : d.stripped.Bare :=
  ⟨rfl, rfl, fun _ => d.constraints_of_mem_stripped⟩

namespace Universe

variable {u v : Universe} {A : Handle → Prop}

/-- All that one step can do to a grounded universe. -/
inductive Evolves (A : Handle → Prop) (u : Universe) : Universe → Prop where
  | expand {v : Universe} (h : u.Expands A v) : Evolves A u v
  | declare {d : Declaration} {v : Universe} {ty : Handle} (hd : d.Bare)
      (hv : (u.enrolled d).Expands A v) (hg : (v.addOwnType ty).Grounded) :
      Evolves A u (v.addOwnType ty)
  | setBase {decl : DeclId} {d : Declaration} {base : Handle} (hd : u.catalog.get? decl = some d)
      (hclass : d.isInterface = false) (hkind : u.isBaseKind base)
      (hscope : u.anyOwner (· != decl) base = false)
      (hany : (u.head? base).any (u.inheritsFrom · decl) = false) :
      Evolves A u (u.withBase decl base).dropClosures
  | addInterface {decl : DeclId} {d : Declaration} {interface : Handle}
      (hd : u.catalog.get? decl = some d) (hkind : u.isInterface interface)
      (hscope : u.anyOwner (· != decl) interface = false)
      (hany : (u.head? interface).any (u.inheritsFrom · decl) = false) :
      Evolves A u (u.withInterface decl interface).dropClosures
  | addConstraint {owner : DeclId} {index : Nat} {bound : Handle} (hbound : u.contains bound)
      (hscope : u.anyOwner (· != owner) bound = false) :
      Evolves A u (u.withConstraint owner index bound).dropClosures

theorem Evolves.grounded (hu : u.Grounded) (h : u.Evolves A v) : v.Grounded := by
  cases h with
  | expand h => exact h.grounded hu
  | declare hd hv hg => exact hg
  | setBase hd hclass hkind hscope hany =>
    rw [← inheritsFrom_dropClosures] at hany
    exact (Valid.withBase hu hkind hany).grounded
  | addInterface hd hkind hscope hany =>
    rw [← inheritsFrom_dropClosures] at hany
    exact (Valid.withInterface hu hkind hany).grounded
  | addConstraint hbound hscope => exact (Valid.withConstraint hu _ hbound).grounded

namespace Grounded

variable (hu : u.Grounded)
include hu

/-- A name that is taken is refused; any other gets a bare declaration and its own type. -/
theorem declare_cases (d : Declaration) (j : Journal) :
    ((Declaring.declare d).run ⟨u, j⟩).2.univ = u ∨
      ∃ v ty, ((Declaring.declare d).run ⟨u, j⟩).2.univ = v.addOwnType ty ∧
        (u.enrolled d.stripped).Expands A v ∧ (v.addOwnType ty).Grounded := by
  rw [Declaring.run_declare]
  cases u.checkName d.stripped.name with
  | error e => exact Or.inl rfl
  | ok _ =>
    have hbare := d.bare_stripped
    have henrolled : (u.enrolled d.stripped).dropClosures.Consistent :=
      hu.consistent.enrolled hbare.base hbare.interfaces hbare.bounds
    have hget : (u.enrolled d.stripped).dropClosures.catalog.get? (u.catalog.add d.stripped).1 =
        some d.stripped := by
      rw [dropClosures, enrolled, Catalog.get?_add, if_pos rfl]
    have hown := ownTypeFor_ensures henrolled hget
    rw [d.arity_stripped] at hown
    obtain ⟨hv, hr⟩ := (ownTypeFor_blind _ _).expands (A := A) hown
      (j.note (.registered (u.catalog.add d.stripped).1 d.stripped.kind d.stripped.name))
    exact Or.inr ⟨_, _, rfl, hv, (Valid.addOwnType hu hv.grows (d.arity_stripped ▸ hr.reads)).grounded⟩

theorem evolves_declare (d : Declaration) (j : Journal) :
    u.Evolves A ((Declaring.declare d).run ⟨u, j⟩).2.univ := by
  rcases hu.declare_cases (A := A) d j with h | ⟨v, ty, h, hv, hg⟩
  · rw [h]
    exact .expand (.refl hu)
  · rw [h]
    exact .declare d.bare_stripped hv hg

theorem evolves_setBase (declared base : Handle) (j : Journal) :
    u.Evolves A ((Declaring.setBase declared base).run ⟨u, j⟩).2.univ := by
  rw [Declaring.run_setBase]
  cases hcheck : u.checkBase declared base with
  | error e => exact .expand (.refl hu)
  | ok decl =>
    obtain ⟨d, hown, hclass, hkind, hscope, hany⟩ := checkBase_eq_ok hcheck
    exact .setBase (ownDeclarationOf_eq_ok hown).2.1 hclass hkind hscope hany

theorem evolves_addInterface (declared interface : Handle) (j : Journal) :
    u.Evolves A ((Declaring.addInterface declared interface).run ⟨u, j⟩).2.univ := by
  rw [Declaring.run_addInterface]
  cases hcheck : u.checkInterface declared interface with
  | error e => exact .expand (.refl hu)
  | ok p =>
    obtain ⟨decl, d⟩ := p
    obtain ⟨hown, hkind, hscope, hany⟩ := checkInterface_eq_ok hcheck
    dsimp only
    split_ifs
    · exact .expand (.refl hu)
    · exact .addInterface (ownDeclarationOf_eq_ok hown).2.1 hkind hscope hany

theorem evolves_addConstraint (param bound : Handle) (j : Journal) :
    u.Evolves A ((Declaring.addConstraint param bound).run ⟨u, j⟩).2.univ := by
  rw [Declaring.run_addConstraint]
  cases hcheck : u.checkConstraint param bound with
  | error e => exact .expand (.refl hu)
  | ok p =>
    obtain ⟨owner, index⟩ := p
    obtain ⟨-, hbound, hscope⟩ := checkConstraint_eq_ok hcheck
    exact .addConstraint hbound hscope

end Grounded

end Universe

/-! ## Steps -/

namespace Operation

variable {u : Universe} {op : Operation} {A : Handle → Prop}

/-- The handles whose interfaces an operation asks for. -/
def asks : Operation → List Handle
  | interfaces ty => [ty]
  | isAssignable source _ => [source]
  | _ => []

/-- The arguments put for parameters are known. All other handles are looked up before use. -/
def argsKnown (u : Universe) : Operation → Bool
  | instantiate _ _ args => args.all u.contains
  | _ => true

/-- An operation that changes no declaration makes a grounded universe expand. -/
theorem expands_run (hu : u.Grounded) (hop : op.declares = false) (hargs : op.argsKnown u)
    (hA : ∀ ty ∈ op.asks, u.contains ty = false → A ty) (j : Journal) :
    u.Expands A (op.run ⟨u, j⟩).2.univ := by
  cases op with
  | declare d => cases hop
  | setBase declared base => cases hop
  | addInterface declared interface => cases hop
  | addConstraint param bound => cases hop
  | parameter definition index => exact parameter_expands hu definition index
  | parameterNamed definition name => exact parameterNamed_expands hu definition name
  | apply definition args => exact apply_expands hu definition args
  | instantiate ty owner args => exact instantiate_expands hu ty owner (List.all_eq_true.1 hargs)
  | baseType ty => exact baseType_expands hu ty
  | baseChain ty => exact baseChain_expands hu ty
  | declaredInterfaces ty => exact declaredInterfaces_expands hu ty
  | interfaces ty => exact interfaces_expands hu ty (hA ty List.mem_cons_self)
  | isAssignable source target =>
    exact isAssignable_expands hu source target (hA source List.mem_cons_self)

theorem evolves_run (hu : u.Grounded) (hargs : op.argsKnown u)
    (hA : ∀ ty ∈ op.asks, u.contains ty = false → A ty) (j : Journal) :
    u.Evolves A (op.run ⟨u, j⟩).2.univ := by
  cases hop : op.declares with
  | false => exact .expand (expands_run hu hop hargs hA j)
  | true =>
    cases op with
    | declare d => exact hu.evolves_declare d j
    | setBase declared base => exact hu.evolves_setBase declared base j
    | addInterface declared interface => exact hu.evolves_addInterface declared interface j
    | addConstraint param bound => exact hu.evolves_addConstraint param bound j
    | _ => cases hop

end Operation

/-- A step in the use of a universe: an operation, a generic type made from its definition, or a
query of a solver with the given verdicts on record. -/
inductive Step where
  | operation (op : Operation)
  | makeGeneric (definition : Handle) (args : List Handle)
  | query (verdicts : Verdicts) (limits : Limits) (source target : Option Handle)

namespace Step

variable {u : Universe} {s : Step} {A : Handle → Prop}

/-- What a step does to the universe; its answer is left out. -/
def run : Step → UniverseM Unit
  | operation op => op.run
  | makeGeneric definition args => discard (UniverseM.makeGeneric definition args)
  | query verdicts limits source target => fun c =>
    ((), (Solver.query limits source target ⟨c, verdicts⟩).2.chronicle)

/-- Whether a step may change what declarations say. -/
def declares : Step → Bool
  | operation op => op.declares
  | _ => false

/-- The handles whose interfaces a step asks for. -/
def asks : Step → List Handle
  | operation op => op.asks
  | makeGeneric _ _ => []
  | query _ _ source _ => source.toList

/-- Steps may be given any handles, except as arguments to be put for parameters. -/
def allowed (u : Universe) : Step → Bool
  | operation op => op.argsKnown u
  | _ => true

theorem query_expands (hu : u.Grounded) (verdicts : Verdicts) (limits : Limits)
    (source target : Option Handle) (hA : ∀ ty ∈ source, u.contains ty = false → A ty)
    (j : Journal) : u.Expands A (run (.query verdicts limits source target) ⟨u, j⟩).2.univ := by
  obtain ⟨j', e, -, -, hrun⟩ := Solver.run_query source target ⟨⟨u, j⟩, verdicts⟩
  show u.Expands A (Solver.query limits source target ⟨⟨u, j⟩, verdicts⟩).2.univ
  rw [hrun]
  exact Search.check_widens (s := .start ⟨⟨u, j'⟩, verdicts⟩ limits) source target hA hu

theorem expands_run (hu : u.Grounded) (hs : s.declares = false) (hallowed : s.allowed u)
    (hA : ∀ ty ∈ s.asks, u.contains ty = false → A ty) (j : Journal) :
    u.Expands A (s.run ⟨u, j⟩).2.univ := by
  cases s with
  | operation op => exact op.expands_run hu hs hallowed hA j
  | makeGeneric definition args => exact makeGeneric_expands hu definition args
  | query verdicts limits source target =>
    exact query_expands hu verdicts limits source target
      (fun ty hty => hA ty (Option.mem_toList.2 hty)) j

/-- All that a step can do. -/
theorem evolves_run (hu : u.Grounded) (hallowed : s.allowed u)
    (hA : ∀ ty ∈ s.asks, u.contains ty = false → A ty) (j : Journal) :
    u.Evolves A (s.run ⟨u, j⟩).2.univ := by
  cases s with
  | operation op => exact op.evolves_run hu hallowed hA j
  | makeGeneric definition args => exact .expand (expands_run hu rfl hallowed hA j)
  | query verdicts limits source target => exact .expand (expands_run hu rfl hallowed hA j)

/-! ## Runs -/

/-- Takes steps in order. -/
def runAll (steps : List Step) (c : Chronicle) : Chronicle :=
  steps.foldl (fun c s => (s.run c).2) c

/-- Every step is allowed by the time that it is taken. -/
def allAllowed : List Step → Chronicle → Bool
  | [], _ => true
  | s :: steps, c => s.allowed c.univ && allAllowed steps (s.run c).2

theorem runAll_concat (steps : List Step) (s : Step) (c : Chronicle) :
    runAll (steps ++ [s]) c = (s.run (runAll steps c)).2 := by
  simp [runAll]

theorem allAllowed_concat (steps : List Step) (s : Step) (c : Chronicle) :
    allAllowed (steps ++ [s]) c = (allAllowed steps c && s.allowed (runAll steps c).univ) := by
  induction steps generalizing c with
  | nil => simp [allAllowed, runAll]
  | cons t steps ih =>
    rw [List.cons_append, allAllowed, allAllowed, ih, Bool.and_assoc]
    rfl

theorem grounded_fresh : Chronicle.fresh.univ.Grounded :=
  Universe.valid_empty.grounded

/-- What holds of the empty universe and is kept by every step that is allowed in a grounded universe
holds at the end of every run. -/
theorem run_induction {motive : List Step → Chronicle → Prop} (fresh : motive [] .fresh)
    (step : ∀ steps s c, c = runAll steps .fresh → c.univ.Grounded → s.allowed c.univ →
      motive steps c → motive (steps ++ [s]) (s.run c).2)
    (steps : List Step) (h : allAllowed steps .fresh) :
    (runAll steps .fresh).univ.Grounded ∧ motive steps (runAll steps .fresh) := by
  induction steps using List.reverseRecOn with
  | nil => exact ⟨grounded_fresh, fresh⟩
  | append_singleton steps s ih =>
    rw [allAllowed_concat, Bool.and_eq_true] at h
    obtain ⟨hg, hm⟩ := ih h.1
    rw [runAll_concat]
    have hev := evolves_run (A := fun _ => True) hg h.2 (fun _ _ _ => trivial) (runAll steps .fresh).journal
    exact ⟨hev.grounded hg, step steps s _ rfl hg h.2 hm⟩

theorem grounded_runAll (steps : List Step) (h : allAllowed steps .fresh) :
    (runAll steps .fresh).univ.Grounded :=
  (run_induction (motive := fun _ _ => True) trivial (fun _ _ _ _ _ _ _ => trivial) steps h).1

end Step

end Subtyping
