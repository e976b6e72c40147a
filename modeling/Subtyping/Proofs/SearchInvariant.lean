import Subtyping.Proofs.Hierarchy
import Subtyping.Proofs.Relation
import Subtyping.Proofs.SearchFrame
import Subtyping.Substitution.Query

/-!
# What a search knows

A search works on assumptions: a pair in progress that comes up again is taken to hold. So an answer
in the middle of a search establishes a pair only under the pairs that it leans on
(`Search.leaned`), and a failure means something only if no limit refused a question on the way
(`Search.Refused`). `Search.Decided` and `Search.Settles` say this of a yes or no and of the type that
comes with a yes.

`Search.Sound` is what holds in every state: all verdicts on record are exact. A search may share its
solver, so that others move the solver on between its steps (`Solver.Advances`). A `Search.Logic` has the
rules for work in such steps, and `Search.Ensures s x Q` says that the work `x`, begun in the state `s`,
keeps the search sound and ends with `Q`. `Search.Logic.alone` is for a search with a solver of its own.
-/

namespace Subtyping

/-- A verdict on a pair of known types is the resolved type of the pair, or that there is none. -/
def Universe.Decides (u : Universe) (pair : Pair) (verdict : Verdict) : Prop :=
  u.contains pair.source ∧ u.contains pair.target ∧
    Option.Rel u.Reads verdict.substitution?
      (u.signature.res (u.typeAt pair.source) (u.typeAt pair.target))

theorem Universe.Grows.rel_reads {u v : Universe} (h : u.Grows v) {r : Option Handle}
    {t : Option Ty} (hr : Option.Rel u.Reads r t) : Option.Rel v.Reads r t := by
  cases hr with
  | some hr => exact .some (h.reads hr)
  | none => exact .none

theorem Universe.Grows.decides {u v : Universe} (h : u.Grows v) {pair : Pair} {verdict : Verdict}
    (hd : u.Decides pair verdict) : v.Decides pair verdict := by
  obtain ⟨hs, ht, hr⟩ := hd
  refine ⟨h.contains hs, h.contains ht, ?_⟩
  rw [h.signature, h.typeAt hs, h.typeAt ht]
  exact h.rel_reads hr

/-! ## Solvers -/

namespace Solver

variable {S : Signature} {s s' s'' : Solver}

/-- The universe that a solver works in. -/
abbrev univ (s : Solver) : Universe :=
  s.chronicle.univ

/-- All verdicts of a solver are exact. -/
structure Exact (S : Signature) (s : Solver) : Prop where
  consistent : s.univ.Consistent
  owned : s.univ.Owned
  signature : s.univ.signature = S
  entries : ∀ {pair : Pair} {verdict : Verdict},
    s.verdicts.entries[pair]? = some verdict → s.univ.Decides pair verdict

variable (S) in
/-- What a query does to a solver. -/
structure Advances (s s' : Solver) : Prop where
  exact : s'.Exact S
  grows : s.univ.Grows s'.univ
  entries : ∀ {pair : Pair} {verdict : Verdict},
    s.verdicts.entries[pair]? = some verdict → s'.verdicts.entries[pair]? = some verdict
  noted : ∀ {pair : Pair} {r : Option Handle}, .verdict pair r ∈ s'.chronicle.journal.events →
    .verdict pair r ∈ s.chronicle.journal.events ∨
      s'.verdicts.entries[pair]? = some (.ofSubstitution r)

theorem Advances.refl (hs : s.Exact S) : Advances S s s :=
  ⟨hs, .refl hs.consistent, id, Or.inl⟩

theorem Advances.trans (h : Advances S s s') (h' : Advances S s' s'') : Advances S s s'' :=
  ⟨h'.exact, h.grows.trans h'.grows, fun hp => h'.entries (h.entries hp), fun hr =>
    (h'.noted hr).elim (fun hr => (h.noted hr).imp_right h'.entries) Or.inr⟩

end Solver

namespace Search

open UniverseM
open Solver (Advances)

universe v

variable {α β : Type} {S : Signature} {levels : Nat} {s s' s'' : Search} {a b : Ty}

/-- The universe that a search works in. -/
abbrev univ (s : Search) : Universe :=
  s.chronicle.univ

/-! ## The invariant -/

/-- What holds of a search in a universe with signature `S` that has `levels` more levels of depth
to go at most. -/
structure Sound (S : Signature) (levels : Nat) (s : Search) : Prop where
  consistent : s.univ.Consistent
  owned : s.univ.Owned
  signature : s.univ.signature = S
  entries : ∀ {pair : Pair} {verdict : Verdict},
    s.verdicts.entries[pair]? = some verdict → s.univ.Decides pair verdict
  known : ∀ p ∈ s.stack, s.univ.contains p.source ∧ s.univ.contains p.target
  visiting : ∀ p, p ∈ s.guard.visiting ↔ p ∈ s.stack
  room : s.guard.limits.depth ≤ levels + s.guard.depth

/-- A state that work leads to. -/
structure Leads (S : Signature) (levels : Nat) (s s' : Search) : Prop where
  framed : s.Framed s'
  grows : s.univ.Grows s'.univ
  after : Sound S levels s'

theorem Leads.refl (hs : Sound S levels s) : Leads S levels s s :=
  ⟨.refl s, .refl hs.consistent, hs⟩

theorem Leads.trans (h : Leads S levels s s') (h' : Leads S levels s' s'') :
    Leads S levels s s'' :=
  ⟨h.framed.trans h'.framed, h.grows.trans h'.grows, h'.after⟩

/-- A state that only differs in the universe, which has grown, is as sound. -/
theorem Sound.grow {c : Chronicle} (hs : Sound S levels s) (hg : s.univ.Grows c.univ) :
    Sound S levels { s with chronicle := c } :=
  ⟨hg.after, hg.owned hs.owned, hg.signature.trans hs.signature,
    fun h => hg.decides (hs.entries h),
    fun p hp => ⟨hg.contains (hs.known p hp).1, hg.contains (hs.known p hp).2⟩, hs.visiting, hs.room⟩

theorem Sound.exact (hs : Sound S levels s) : s.solver.Exact S :=
  ⟨hs.consistent, hs.owned, hs.signature, hs.entries⟩

theorem Leads.advances (h : Leads S levels s s') : Advances S s.solver s'.solver :=
  ⟨h.after.exact, h.grows, h.framed.entries, h.framed.noted⟩

/-- Others that move the solver on do not disturb a search. -/
theorem Sound.later {v : Solver} (hs : Sound S levels s) (h : Advances S s.solver v) :
    Leads S levels s (s.withSolver v) := by
  have hg : s.univ.Grows v.univ := h.grows
  refine ⟨⟨rfl, rfl, fun _ => Iff.rfl, rfl, h.entries, Nat.le_refl _, id,
    fun n hn => ⟨n, hn, Nat.le_refl n⟩, h.noted⟩, hg, ?_⟩
  exact ⟨h.exact.consistent, h.exact.owned, h.exact.signature, h.exact.entries,
    fun p hp => ⟨hg.contains (hs.known p hp).1, hg.contains (hs.known p hp).2⟩, hs.visiting, hs.room⟩

/-! ## Work in steps -/

section Logic

variable {m : Type → Type v} [Monad m] [MonadLiftT UniverseM m] [MonadLiftT SearchM m]

variable (S m) in
/-- Rules for how work in a monad ends. Work within a search is one step, and others may move the solver on
after it. -/
structure Logic where
  /-- Work begun in a state ends with a result and in a state as said. -/
  Ends : {α : Type} → Search → m α → (α → Search → Prop) → Prop
  ends_pure : ∀ {α : Type} {s : Search} {r : α} {Q : α → Search → Prop}, Q r s → Ends s (pure r) Q
  ends_bind : ∀ {α β : Type} {s : Search} {x : m α} {f : α → m β} {Q : α → Search → Prop}
    {R : β → Search → Prop}, Ends s x Q → (∀ r s', Q r s' → Ends s' (f r) R) → Ends s (x >>= f) R
  ends_imp : ∀ {α : Type} {s : Search} {x : m α} {Q Q' : α → Search → Prop}, Ends s x Q →
    (∀ r s', Q r s' → Q' r s') → Ends s x Q'
  ends_step : ∀ {α : Type} {s : Search} {x : SearchM α} {Q : α → Search → Prop},
    Advances S s.solver (x s).2.solver →
    (∀ v, Advances S (x s).2.solver v → Q (x s).1 ((x s).2.withSolver v)) → Ends s (liftM x) Q
  lift_eq : ∀ {α : Type} (x : UniverseM α), (liftM x : m α) = liftM (liftM x : SearchM α)

variable (S) in
/-- A search with a solver of its own. -/
def Logic.alone : Logic S SearchM where
  Ends s x Q := Q (x s).1 (x s).2
  ends_pure h := h
  ends_bind hx hf := hf _ _ hx
  ends_imp hx h := h _ _ hx
  ends_step hx h := h _ (.refl hx.exact)
  lift_eq _ := rfl

variable {L : Logic S m} {Q Q' : α → Search → Prop} {R : β → Search → Prop}

/-- A step that leaves the solver alone. -/
theorem Logic.ends_own {x : SearchM α} {k : α → m β} (hs : s.solver.Exact S)
    (hx : (x s).2.solver = s.solver)
    (h : ∀ v, Advances S s.solver v → L.Ends ((x s).2.withSolver v) (k (x s).1) R) :
    L.Ends s (liftM x >>= k) R := by
  refine L.ends_bind (L.ends_step (Q := fun r s' => L.Ends s' (k r) R) ?_ fun v hv => ?_) fun _ _ h => h
  · rw [hx]
    exact .refl hs
  · rw [hx] at hv
    exact h v hv

/-- Work begun in `s` keeps the search sound and ends with `Q`. -/
def Ensures (L : Logic S m) (levels : Nat) (s : Search) (x : m α) (Q : α → Search → Prop) : Prop :=
  L.Ends s x fun r s' => Leads S levels s s' ∧ Q r s'

/-- What is ensured from where work leads. -/
theorem Leads.ends (h : Leads S levels s s') {x : m α} (hx : Ensures L levels s' x Q) :
    L.Ends s' x fun r s'' => Leads S levels s s'' ∧ Q r s'' :=
  L.ends_imp hx fun _ _ hr => ⟨h.trans hr.1, hr.2⟩

namespace Ensures

theorem pure (hs : Sound S levels s) {r : α} (h : Q r s) : Ensures L levels s (pure r) Q :=
  L.ends_pure ⟨.refl hs, h⟩

theorem bind {x : m α} {f : α → m β} (hx : Ensures L levels s x Q)
    (hf : ∀ r s', Leads S levels s s' → Q r s' → Ensures L levels s' (f r) R) :
    Ensures L levels s (x >>= f) R :=
  L.ends_bind hx fun r s' hr => hr.1.ends (hf r s' hr.1 hr.2)

theorem imp {x : m α} (hx : Ensures L levels s x Q)
    (h : ∀ r s', Leads S levels s s' → Q r s' → Q' r s') : Ensures L levels s x Q' :=
  L.ends_imp hx fun r s' hr => ⟨hr.1, h r s' hr.1 hr.2⟩

/-- A step that keeps the search sound. What it ends with has to last. -/
theorem step {x : SearchM α} (hx : Leads S levels s (x s).2)
    (h : ∀ s', Leads S levels (x s).2 s' → Q (x s).1 s') : Ensures L levels s (liftM x) Q :=
  L.ends_step hx.advances fun _ hv => ⟨hx.trans (hx.after.later hv), h _ (hx.after.later hv)⟩

/-- Work on the universe that makes it grow. -/
theorem lift (hs : Sound S levels s) {x : UniverseM α} {P : α → Universe → Prop} (hq : Quiet x)
    (hx : UniverseM.Ensures s.univ x P) (hP : ∀ {r u v}, u.Grows v → P r u → P r v) :
    Ensures L levels s (liftM x : m α) fun r s' => P r s'.univ := by
  obtain ⟨hg, hp⟩ := hx s.chronicle.journal
  rw [L.lift_eq]
  exact step ⟨Frames.lift hq s, hg, hs.grow hg⟩ fun s' h => hP h.grows hp

/-- A note that is no verdict. -/
theorem note (hs : Sound S levels s) {e : Event} (he : ∀ pair r, e ≠ .verdict pair r) :
    Ensures L levels s (liftM (UniverseM.note e) : m Unit) fun _ _ => True := by
  rw [L.lift_eq]
  exact step ⟨Frames.lift (.note he) s, .refl hs.consistent, hs.grow (.refl hs.consistent)⟩
    fun _ _ => trivial

/-- A look at the state. -/
theorem read {x : SearchM α} (hs : Sound S levels s) (hx : (x s).2 = s) {k : α → m β}
    (h : ∀ v, Leads S levels s (s.withSolver v) → Ensures L levels (s.withSolver v) (k (x s).1) R) :
    Ensures L levels s (liftM x >>= k) R := by
  refine L.ends_own hs.exact (congrArg solver hx) fun v hv => ?_
  rw [hx]
  exact (hs.later hv).ends (h v (hs.later hv))

theorem view (hs : Sound S levels s) {f : Universe → α} {k : α → m β}
    (h : ∀ v, Leads S levels s (s.withSolver v) → Ensures L levels (s.withSolver v) (k (f s.univ)) R) :
    Ensures L levels s ((liftM (UniverseM.view f) : m α) >>= k) R := by
  rw [L.lift_eq]
  exact read hs rfl h

end Ensures

end Logic

/-! ## What answers lean on -/

/-- The pairs in progress that the current answer may lean on: the outermost one that it does lean
on, and all further in. -/
def leaned (s : Search) (a b : Ty) : Prop :=
  ∃ low ∈ s.lowest, ∃ place, ∃ p : Pair, low ≤ place ∧ s.stack[place]? = some p ∧
    s.univ.typeAt p.source = a ∧ s.univ.typeAt p.target = b

theorem Leads.leaned (h : Leads S levels s s') (hs : Sound S levels s) (hl : s.leaned a b) :
    s'.leaned a b := by
  obtain ⟨low, hlow, place, p, hle, hp, hsrc, htgt⟩ := hl
  obtain ⟨low', hlow', hle'⟩ := h.framed.lowest low hlow
  obtain ⟨hks, hkt⟩ := hs.known p (Array.mem_of_getElem? hp)
  refine ⟨low', hlow', place, p, Nat.le_trans hle' hle, by rw [h.framed.stack, hp], ?_, ?_⟩
  · rw [h.grows.typeAt hks, hsrc]
  · rw [h.grows.typeAt hkt, htgt]

/-- A limit refused a question since there were `since` refusals. -/
def Refused (since : Nat) (s : Search) : Prop :=
  since < s.refusals ∧ s.guard.exceeded

variable {since since' : Nat}

theorem Refused.after (h : Refused since s) (hf : s.Framed s') : Refused since s' :=
  ⟨Nat.lt_of_lt_of_le h.1 hf.refusals, hf.exceeded h.2⟩

theorem Refused.before (hle : since ≤ since') (h : Refused since' s) : Refused since s :=
  ⟨Nat.lt_of_le_of_lt hle h.1, h.2⟩

variable (S) in
/-- A yes or no to what `P` says of the substitution relation: a yes holds under the pairs leaned
on, a no holds unless a limit refused a question. -/
structure Decided (since : Nat) (s : Search) (P : (Ty → Ty → Prop) → Prop) (r : Bool) : Prop where
  holds : r = true → P (S.Under s.leaned)
  fails : r = false → Refused since s ∨ ¬ P S.Sub

variable (S) in
/-- A property of a type found on the way: it has it unless a limit refused a question, a pair
leaned on does not hold, or a pair leaned on has a target smaller than `n`, for which a type was
assumed. -/
def Settles (since : Nat) (s : Search) (n : Nat) (P : Prop) : Prop :=
  Refused since s ∨
    ((∀ x y, s.leaned x y → S.Sub x y) → P ∨ ∃ x y, s.leaned x y ∧ sizeOf y < n)

namespace Decided

variable {P P' : (Ty → Ty → Prop) → Prop} {r : Bool}

/-- An answer that is right whatever is assumed. -/
theorem of_iff (h : r = true ↔ P (S.Under s.leaned)) (h' : r = true ↔ P S.Sub) :
    Decided S since s P r :=
  ⟨h.1, fun hr => Or.inr fun hp => by rw [h'.2 hp] at hr; cases hr⟩

theorem before (hle : since ≤ since') (h : Decided S since' s P r) : Decided S since s P r :=
  ⟨h.holds, fun hr => (h.fails hr).imp_left (.before hle)⟩

theorem imp (h : Decided S since s P r) (hP : P (S.Under s.leaned) → P' (S.Under s.leaned))
    (hP' : P' S.Sub → P S.Sub) : Decided S since s P' r :=
  ⟨fun hr => hP (h.holds hr), fun hr => (h.fails hr).imp_right fun hn hp => hn (hP' hp)⟩

end Decided

namespace Settles

variable {P Q T : Prop} {n m k : Nat}

theorem of_sub (h : (∀ x y, s.leaned x y → S.Sub x y) → P) : Settles S since s n P :=
  Or.inr fun hsub => Or.inl (h hsub)

theorem of (h : P) : Settles S since s n P :=
  of_sub fun _ => h

theorem before (hle : since ≤ since') (h : Settles S since' s n P) : Settles S since s n P :=
  h.imp_left (.before hle)

theorem after (hs : Sound S levels s) (hl : Leads S levels s s') (h : Settles S since s n P) :
    Settles S since s' n P := by
  refine h.imp (fun h => h.after hl.framed) fun h hsub => ?_
  rcases h fun x y hxy => hsub x y (hl.leaned hs hxy) with hp | ⟨x, y, hxy, hlt⟩
  · exact Or.inl hp
  · exact Or.inr ⟨x, y, hl.leaned hs hxy, hlt⟩

theorem and (h : Settles S since s n P) (h' : Settles S since s m Q) (hn : n ≤ k) (hm : m ≤ k)
    (hT : P → Q → T) : Settles S since s k T := by
  rcases h with hr | h
  · exact Or.inl hr
  rcases h' with hr | h'
  · exact Or.inl hr
  refine Or.inr fun hsub => ?_
  rcases h hsub with hp | ⟨x, y, hxy, hlt⟩
  · rcases h' hsub with hq | ⟨x, y, hxy, hlt⟩
    · exact Or.inl (hT hp hq)
    · exact Or.inr ⟨x, y, hxy, Nat.lt_of_lt_of_le hlt hm⟩
  · exact Or.inr ⟨x, y, hxy, Nat.lt_of_lt_of_le hlt hn⟩

theorem imp (h : Settles S since s n P) (hn : n ≤ k) (hT : P → T) : Settles S since s k T :=
  h.and (of trivial) hn hn fun hp _ => hT hp

end Settles

/-- What holds under the pairs leaned on goes on to hold as the search goes on. -/
theorem Leads.under (h : Leads S levels s s') (hs : Sound S levels s)
    (hu : S.Under s.leaned a b) : S.Under s'.leaned a b :=
  hu.mono fun _ _ => h.leaned hs

end Search

end Subtyping
