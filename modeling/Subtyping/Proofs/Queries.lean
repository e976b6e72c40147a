import Subtyping.Proofs.Building
import Subtyping.Proofs.SearchAnswers
import Subtyping.Substitution.Query

/-!
# Queries

A solver is `Exact` if all its verdicts are. A query keeps it so, answers yes only for pairs of the
substitution relation, and, unless a limit refused a question, gives the resolved type
(`Solver.Exact.query`).

A solver is `Served` from a universe if it comes from a new one by queries on known types, with any
limits, by clearing its verdicts, and by whatever else is done meanwhile in the same universe without
changing declarations, other solvers included. Every such solver is exact (`Solver.Served.exact`), and
so is every verdict that was ever noted as recorded.
-/

namespace Subtyping

namespace Universe

variable {u v : Universe} {r : Option Handle} {t : Option Ty}

theorem isSome_of_rel (h : Option.Rel u.Reads r t) : r.isSome = t.isSome := by
  cases h <;> rfl

theorem map_eq_of_rel {α : Type} {f : Handle → α} {g : Ty → α} (h : Option.Rel u.Reads r t)
    (hfg : ∀ {ty t}, u.Reads ty t → f ty = g t) : r.map f = t.map g := by
  cases h with
  | none => rfl
  | some h => exact congrArg some (hfg h)

theorem map_typeAt_of_rel (h : Option.Rel u.Reads r t) : r.map u.typeAt = t :=
  (map_eq_of_rel h fun h => h.2).trans Option.map_id'

theorem contains_of_rel (h : Option.Rel u.Reads r t) : ∀ ty ∈ r, u.contains ty := by
  cases h with
  | none => nofun
  | some h =>
    intro ty hty
    cases hty
    exact h.1

/-- In a universe and a later one, what reads the same is the same. -/
theorem Consistent.rel_reads_injective (hu : u.Consistent) (hv : v.Consistent)
    (hext : u.table.Extends v.table) {r' : Option Handle}
    (h : Option.Rel u.Reads r t) (h' : Option.Rel v.Reads r' t) : r = r' := by
  cases h with
  | none =>
    cases h'
    rfl
  | some h =>
    cases h' with
    | some h' =>
      have hlater := (hext.typeAt_eq hu.table hv.table h.1).trans h.2
      rw [hv.reads_injective ⟨hext.isSome h.1, hlater⟩ h']

end Universe

namespace Solver

variable {S : Signature} {s : Solver} {a b : Ty} {source target : Handle}

/-- A new solver in a valid universe. -/
theorem exact_new {u : Universe} (hu : u.Valid) (j : Journal) : Exact u.signature ⟨⟨u, j⟩, {}⟩ :=
  ⟨hu.consistent, hu.owned, rfl, fun h => by simp at h⟩

/-- What is noted in the journal does not matter. -/
theorem Exact.journal (hs : s.Exact S) (j : Journal) : Exact S ⟨⟨s.univ, j⟩, s.verdicts⟩ :=
  ⟨hs.consistent, hs.owned, hs.signature, hs.entries⟩

theorem Exact.start (hs : s.Exact S) (limits : Limits) :
    Search.Sound S limits.depth (.start s limits) := by
  refine ⟨hs.consistent, hs.owned, hs.signature, hs.entries, fun p hp => ?_, fun p => ?_, ?_⟩
  · simp [Search.start] at hp
  · simp [Search.start, Guard.new]
  · exact Nat.le_add_right _ _

end Solver

namespace Search

open UniverseM

universe v

variable {S : Signature} {levels : Nat} {s s' : Search} {a b : Ty} {source target : Handle}

/-- At the outermost level nothing is assumed. -/
theorem not_leaned_of_stack_eq_empty (h : s.stack = #[]) : ¬ s.leaned a b := by
  rintro ⟨low, -, place, p, -, hp, -⟩
  simp [h] at hp

variable (S) in
/-- What the answer to a query says: a yes is right and comes with a known type, and unless a limit
refused a question the type is the resolved one. -/
structure Reply (u : Universe) (a b : Ty) (answer : Answer) : Prop where
  related : answer.isRelated → S.Sub a b
  known : ∀ ty ∈ answer.substitution, u.contains ty
  resolved : answer.depthExceeded = false → Option.Rel u.Reads answer.substitution (S.res a b)

theorem Reply.of_rel {u : Universe} {answer : Answer}
    (h : Option.Rel u.Reads answer.substitution (S.res a b)) : Reply S u a b answer :=
  ⟨fun hr => Signature.isSome_res_iff.1 (Universe.isSome_of_rel h ▸ hr),
    Universe.contains_of_rel h, fun _ => h⟩

theorem Reply.grow {u v : Universe} {answer : Answer} (h : Reply S u a b answer) (hg : u.Grows v) :
    Reply S v a b answer :=
  ⟨h.related, fun ty hty => hg.contains (h.known ty hty), fun hr => hg.rel_reads (h.resolved hr)⟩

/-- What is found out at the outermost level of a search, unless a limit refused a question, is the resolved
type. -/
theorem Answered.rel_of_stack_eq_empty {since : Nat} {r : Option Handle} (h : Answered S since s a b r)
    (hstack : s.stack = #[]) (hno : ¬ Refused since s) : Option.Rel s.univ.Reads r (S.res a b) := by
  have hempty : ∀ x y, ¬ s.leaned x y := fun x y => not_leaned_of_stack_eq_empty hstack
  cases r with
  | none =>
    have hres : S.res a b = none := by
      rw [← Option.not_isSome_iff_eq_none, Signature.isSome_res_iff]
      exact (h.decided.fails rfl).resolve_left hno
    rw [hres]
    exact .none
  | some ty =>
    obtain ⟨t, ht, hset⟩ := h.resolved ty rfl
    rcases hset.resolve_left hno fun x y hxy => absurd hxy (hempty x y) with hres | ⟨x, y, hxy, -⟩
    · rw [hres]
      exact .some ht
    · exact absurd hxy (hempty x y)

/-- A query at the outermost level of a search is answered. -/
theorem check_ensures {m : Type → Type v} [Monad m] [MonadLiftT UniverseM m] [MonadLiftT SearchM m]
    {L : Logic S m} (hs : Sound S levels s) (hstack : s.stack = #[])
    (hlevels : s.guard.limits.depth = levels) (ha : s.univ.Reads source a)
    (hb : s.univ.Reads target b) :
    Ensures L levels s (checkWith .plain (some source) (some target)) fun answer s' =>
      Reply S s'.univ a b answer := by
  rw [checkWith, checkBy]
  split_ifs with heq
  · exact .pure hs (.of_rel (hs.rel_of_eq ha hb heq))
  · have hne : a ≠ b := fun h => heq ((hs.consistent.eq_iff_of_reads ha hb).2 h)
    refine Ensures.bind (lookup_ensures hs _) ?_
    rintro _ s₁ h₁ rfl
    cases hfound : s.verdicts.entries[(⟨source, target⟩ : Pair)]? with
    | some verdict =>
      have hrel := hs.rel_of_recorded ha hb hfound
      exact .pure h₁.after (.of_rel (h₁.grows.rel_reads hrel))
    | none =>
      have hevaluate : Ensures L levels s₁
          (liftM depthLimit >>= fun depth => evaluateWith .plain depth ⟨source, target⟩) fun r s' =>
            Answered S s₁.refusals s' a b r := by
        refine Ensures.read h₁.after rfl fun v hv => ?_
        have hdepth : (depthLimit s₁).1 = levels := (congrArg Limits.depth h₁.framed.limits).trans hlevels
        have h₂ := h₁.trans hv
        rw [hdepth]
        exact evaluateWith_evaluates L levels h₂.after (h₂.grows.reads ha) (h₂.grows.reads hb) hne
      refine Ensures.bind hevaluate fun r s₂ h₂ hr => ?_
      refine Ensures.read h₂.after rfl fun v hg => ?_
      have hempty : s₂.stack = #[] := (h₁.trans h₂).framed.stack.trans hstack
      have hsub : r.isSome → S.Sub a b := fun h =>
        (hr.decided.holds h).sub fun x y hxy => absurd hxy (not_leaned_of_stack_eq_empty hempty)
      refine .pure hg.after ⟨hsub, fun ty hty => ?_, fun hexc => ?_⟩
      · obtain ⟨t, ht, -⟩ := hr.resolved ty hty
        exact (hg.grows.reads ht).1
      · have hno : ¬ Refused s₁.refusals s₂ := fun h => Bool.false_ne_true (hexc.symm.trans h.2)
        exact hg.grows.rel_reads (hr.rel_of_stack_eq_empty hempty hno)

end Search

namespace Solver

open Search

variable {S : Signature} {s : Solver} {a b : Ty}

/-- A query runs a search of its own; it notes its beginning and, with the answer, its end. -/
theorem run_query (source target : Option Handle) (s : Solver) :
    ∃ (j : Journal) (e : Answer → Event), (∀ a pair r, e a ≠ .verdict pair r) ∧
      (∀ pair r, .verdict pair r ∈ j.events → .verdict pair r ∈ s.chronicle.journal.events) ∧
      ∀ limits, Solver.query limits source target s =
        let r := check source target (.start ⟨⟨s.univ, j⟩, s.verdicts⟩ limits)
        (r.1, ⟨⟨r.2.univ, r.2.chronicle.journal.note (e r.1)⟩, r.2.verdicts⟩) := by
  refine ⟨_, fun a => .queryEnded _ a.substitution a.cacheHit a.depthExceeded, nofun,
    fun pair r h => ?_, fun limits => rfl⟩
  · rcases Array.mem_push.1 h with h | h
    · exact h
    · cases h

/-- A note that is no verdict. -/
theorem Exact.note (hs : s.Exact S) {e : Event} (he : ∀ pair r, e ≠ .verdict pair r) :
    Advances S s ⟨⟨s.univ, s.chronicle.journal.note e⟩, s.verdicts⟩ := by
  refine ⟨hs.journal _, .refl hs.consistent, id, fun {pair r} hr => ?_⟩
  rcases Array.mem_push.1 hr with hr | hr
  · exact Or.inl hr
  · exact absurd hr.symm (he pair r)

/-- Where a query leads, given where its search leads. -/
theorem Exact.advances_of_leads (hs : s.Exact S) {limits : Limits} {j : Journal} {e : Event} {t : Search}
    (he : ∀ pair r, e ≠ Event.verdict pair r)
    (hj : ∀ pair r, .verdict pair r ∈ j.events → .verdict pair r ∈ s.chronicle.journal.events)
    (h : Leads S limits.depth (.start ⟨⟨s.univ, j⟩, s.verdicts⟩ limits) t) :
    Advances S s ⟨⟨t.univ, t.chronicle.journal.note e⟩, t.verdicts⟩ := by
  have hstart : Advances S s ⟨⟨s.univ, j⟩, s.verdicts⟩ :=
    ⟨hs.journal j, .refl hs.consistent, id, fun {pair r} hr => Or.inl (hj pair r hr)⟩
  exact (hstart.trans h.advances).trans (h.after.exact.note he)

/-- A query on known types keeps a solver exact and is answered. -/
theorem Exact.query (hs : s.Exact S) (limits : Limits) {source target : Handle}
    (ha : s.univ.Reads source a) (hb : s.univ.Reads target b) :
    Advances S s (Solver.query limits (some source) (some target) s).2 ∧
      Reply S (Solver.query limits (some source) (some target) s).2.univ a b
        (Solver.query limits (some source) (some target) s).1 := by
  obtain ⟨j, e, he, hj, hrun⟩ := run_query (some source) (some target) s
  obtain ⟨hl, hreply⟩ : _ ∧ _ :=
    check_ensures (L := .alone S) ((hs.journal j).start limits) rfl rfl ha hb
  rw [hrun]
  exact ⟨hs.advances_of_leads (he _) hj hl, hreply⟩

/-- So does a query in which types are absent. -/
theorem Exact.query_advances (hs : s.Exact S) (limits : Limits) {source target : Option Handle}
    (hsource : ∀ ty ∈ source, s.univ.contains ty) (htarget : ∀ ty ∈ target, s.univ.contains ty) :
    Advances S s (Solver.query limits source target s).2 := by
  have habsent : (∀ t, check source target t = (⟨none, false, false⟩, t)) →
      Advances S s (Solver.query limits source target s).2 := fun habsent => by
    obtain ⟨j, e, he, hj, hrun⟩ := run_query source target s
    rw [hrun, habsent]
    exact hs.advances_of_leads (he _) hj (.refl ((hs.journal j).start limits))
  cases source with
  | none => exact habsent fun t => rfl
  | some source =>
    cases target with
    | none => exact habsent fun t => rfl
    | some target =>
      exact (hs.query limits (Universe.reads_typeAt (hsource source rfl))
        (Universe.reads_typeAt (htarget target rfl))).1

/-! ## Any use of a solver -/

/-- A solver that comes by use from a new one in the given universe. The universe may be shared:
other solvers ask their queries in it, and types are added to it. -/
inductive Served (c : Chronicle) : Solver → Prop where
  | new : Served c ⟨c, {}⟩
  | query {s : Solver} (hs : Served c s) (limits : Limits) {source target : Option Handle}
      (hsource : ∀ ty ∈ source, s.univ.contains ty) (htarget : ∀ ty ∈ target, s.univ.contains ty) :
      Served c (Solver.query limits source target s).2
  | clear {s : Solver} (hs : Served c s) : Served c (Solver.clear s).2
  | operation {s : Solver} (hs : Served c s) {op : Operation} (hop : op.declares = false)
      (h : ∀ ty ∈ op.handles, s.univ.contains ty) :
      Served c ⟨(op.run s.chronicle).2, s.verdicts⟩
  | other {s : Solver} (hs : Served c s) {verdicts : Verdicts} (hv : Served c ⟨s.chronicle, verdicts⟩)
      (limits : Limits) {source target : Option Handle}
      (hsource : ∀ ty ∈ source, s.univ.contains ty) (htarget : ∀ ty ∈ target, s.univ.contains ty) :
      Served c ⟨(Solver.query limits source target ⟨s.chronicle, verdicts⟩).2.chronicle, s.verdicts⟩

/-- Growth of the universe leaves verdicts exact. -/
theorem Exact.grow (hs : s.Exact S) {c : Chronicle} (hg : s.univ.Grows c.univ) :
    Exact S ⟨c, s.verdicts⟩ :=
  ⟨hg.after, hg.owned hs.owned, hg.signature.trans hs.signature, fun h => hg.decides (hs.entries h)⟩

theorem Exact.clear (hs : s.Exact S) : (Solver.clear s).2.Exact S := by
  refine ⟨hs.consistent, hs.owned, hs.signature, fun {pair verdict} h => ?_⟩
  change ({} : Verdicts).entries[pair]? = some verdict at h
  simp at h

/-- However a solver is used, its verdicts are exact. -/
theorem Served.exact {c : Chronicle} (hc : c.univ.Valid) (h : Served c s) :
    s.Exact c.univ.signature ∧ c.univ.Grows s.univ := by
  induction h with
  | new => exact ⟨exact_new hc _, .refl hc.consistent⟩
  | query _ limits hsource htarget ih =>
    have h := ih.1.query_advances limits hsource htarget
    exact ⟨h.exact, ih.2.trans h.grows⟩
  | clear _ ih => exact ⟨ih.1.clear, ih.2⟩
  | @operation s _ op hop h ih =>
    have hg := Operation.grows_run ih.1.consistent hop h s.chronicle.journal
    exact ⟨ih.1.grow hg, ih.2.trans hg⟩
  | other _ _ limits hsource htarget ih ihv =>
    have h := ihv.1.query_advances limits hsource htarget
    exact ⟨ih.1.grow h.grows, ih.2.trans h.grows⟩

/-- Every verdict that the journal says was recorded since, by any solver, is exact. -/
theorem Served.decides_of_noted {c : Chronicle} (hc : c.univ.Valid) (h : Served c s)
    {pair : Pair} {r : Option Handle} (hr : .verdict pair r ∈ s.chronicle.journal.events) :
    .verdict pair r ∈ c.journal.events ∨ s.univ.Decides pair (.ofSubstitution r) := by
  induction h with
  | new => exact Or.inl hr
  | query hs limits hsource htarget ih =>
    have h := (hs.exact hc).1.query_advances limits hsource htarget
    rcases h.noted hr with hr | hr
    · exact (ih hr).imp_right h.grows.decides
    · exact Or.inr (h.exact.entries hr)
  | clear _ ih => exact ih hr
  | @operation s hs op hop h ih =>
    have hg := Operation.grows_run (hs.exact hc).1.consistent hop h s.chronicle.journal
    exact (ih ((Operation.simple_run hop).quiet _ pair r hr)).imp_right hg.decides
  | other _ hv limits hsource htarget ih _ =>
    have h := (hv.exact hc).1.query_advances limits hsource htarget
    rcases h.noted hr with hr | hr
    · exact (ih hr).imp_right h.grows.decides
    · exact Or.inr (h.exact.entries hr)

end Solver

end Subtyping
