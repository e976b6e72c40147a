import Subtyping.Proofs.Exactness

/-!
# Limits fail safe

Two searches from the same state, one under limits and one under limits that are no tighter, go on in
step as long as the first is refused nothing: they end in the same state, up to the limits
(`Search.InStep`). This holds for every part of a search and from every state
(`Search.evaluate_inStep`). So a query that no limit refused anything is the same query under
more generous limits, and a query that is answered yes under some limits is answered yes under all
that refuse nothing (`Solver.Served.limits_fail_safe`).
-/

namespace Subtyping

namespace Search

open UniverseM

variable {α β : Type} {l l' : Limits} {n : Nat}

/-- The same search under other limits. -/
def withLimits (s : Search) (l : Limits) : Search :=
  { s with guard := { s.guard with limits := l } }

/-- Work under the limits `l`, begun with `n` pairs in progress, and work under the limits `l'` do the
same to a search, unless the former is refused something. -/
structure InStep (l l' : Limits) (n : Nat) (x x' : SearchM α) : Prop where
  frames : Frames x
  same : ∀ s : Search, s.guard.limits = l → s.guard.depth = n → (x s).2.guard.exceeded = false →
    x' (s.withLimits l') = ((x s).1, (x s).2.withLimits l')

namespace InStep

theorem pure (a : α) : InStep l l' n (pure a) (pure a) :=
  ⟨.pure a, fun _ _ _ _ => rfl⟩

theorem bind {x x' : SearchM α} {f f' : α → SearchM β} (hx : InStep l l' n x x')
    (hf : ∀ a, InStep l l' n (f a) (f' a)) : InStep l l' n (x >>= f) (x' >>= f') := by
  refine ⟨.bind hx.frames fun a => (hf a).frames, fun s hl hn hexc => ?_⟩
  have hf' := hf (x s).1
  -- what is refused stays refused, so nothing was by the end of the first part
  have hexc' : (x s).2.guard.exceeded = false := by
    by_contra h
    rw [Bool.not_eq_false] at h
    exact Bool.false_ne_true (hexc.symm.trans ((hf'.frames (x s).2).exceeded h))
  show f' (x' (s.withLimits l')).1 (x' (s.withLimits l')).2 = _
  rw [hx.same s hl hn hexc']
  exact hf'.same _ ((hx.frames s).limits.trans hl) ((hx.frames s).depth.trans hn) hexc

theorem lift {x : UniverseM α} (hx : Quiet x) :
    InStep l l' n (liftM x : SearchM α) (liftM x) :=
  ⟨.lift hx, fun _ _ _ _ => rfl⟩

end InStep

variable (l l' n) in
theorem congruence_inStep : Congruence SearchM SearchM (InStep l l' n) where
  pure := .pure
  bind := .bind
  lift hx := .lift hx.quiet
  refuse := ⟨refuse_frames, fun _ _ _ _ => rfl⟩

theorem substituteBy_inStep {evaluate evaluate' : Pair → SearchM (Option Handle)}
    (he : ∀ pair, InStep l l' n (evaluate pair) (evaluate' pair)) (source target : Handle) :
    InStep l l' n (substituteBy evaluate source target) (substituteBy evaluate' source target) := by
  refine Congruence.branch (P := InStep l l' n) (.pure _)
    (.bind ⟨lookup_frames _, fun _ _ _ _ => rfl⟩ fun found => ?_)
  cases found with
  | none => exact he _
  | some verdict => exact .bind (.lift (.note nofun)) fun _ => .pure _

/-! ## Questions -/

/-- What a guard lets in or sees to be a cycle, it does so under more generous limits. -/
theorem enter_withLimits {g : Guard Pair} (hdepth : g.limits.depth ≤ l'.depth)
    (hsteps : g.limits.steps ≤ l'.steps) {pair : Pair} {admission : Admission} {g' : Guard Pair}
    (h : g.enter pair = (admission, g')) (ha : admission.isExceeded = false) :
    ({ g with limits := l' } : Guard Pair).enter pair = (admission, { g' with limits := l' }) := by
  unfold Guard.enter at h ⊢
  dsimp only at h ⊢
  split_ifs at h with hs hd hmem
  · cases h
    cases ha
  · cases h
    cases ha
  · rw [if_neg (by omega), if_neg (by omega), if_pos hmem]
    cases h
    rfl
  · rw [if_neg (by omega), if_neg (by omega), if_neg hmem]
    cases h
    rfl

theorem leave_withLimits (g : Guard Pair) (pair : Pair) :
    ({ g with limits := l' } : Guard Pair).leave pair = { g.leave pair with limits := l' } := by
  unfold Guard.leave Guard.leave?
  dsimp only
  split_ifs <;> rfl

/-- Limits play no part in ending the work on a pair. -/
theorem settle_withLimits (s : Search) (pair : Pair) (place before : Nat) (around : Option Nat)
    (computed : Option Handle) :
    settle pair place around before computed (s.withLimits l') =
      ((settle pair place around before computed s).1,
        (settle pair place around before computed s).2.withLimits l') := by
  have hpop : (s.withLimits l').popped pair place around =
      (s.popped pair place around).withLimits l' := by
    simp only [popped, withLimits, leave_withLimits]
    rfl
  rw [run_settle, run_settle, hpop]
  show (if (s.provisional place || s.refusals != before) = true then _ else _ :
    SearchM (Option Handle)) _ = _
  split_ifs <;> rfl

theorem entered_or (g : Guard Pair) (pair : Pair) : (g.enter pair).1 ≠ .entered ∨
    g.depth < g.limits.depth ∧ ∃ n, g.enter pair = (.entered,
      { g with steps := n, visiting := g.visiting.insert pair, depth := g.depth + 1 }) := by
  rcases enter_cases g pair with ⟨a, n, ha, he⟩ | ⟨-, n, he⟩ | ⟨-, hlt, he⟩
  · left
    rw [he]
    rintro rfl
    cases ha
  · left
    rw [he]
    nofun
  · exact Or.inr ⟨hlt, he⟩

/-- A pair that is not let in, unless it was refused, is assumed to hold under all limits. -/
theorem evaluate_withLimits_of_not_entered {s : Search} {levels levels' : Nat} {pair : Pair}
    (hdepth : s.guard.limits.depth ≤ l'.depth) (hsteps : s.guard.limits.steps ≤ l'.steps)
    (h : (s.guard.enter pair).1 ≠ .entered)
    (hexc : (evaluate levels pair s).2.guard.exceeded = false) :
    evaluate levels' pair (s.withLimits l') =
      ((evaluate levels pair s).1, (evaluate levels pair s).2.withLimits l') := by
  rcases enter_cases s.guard pair with ⟨_, k, ha, he⟩ | ⟨-, k, he⟩ | ⟨-, -, k, he⟩
  · obtain ⟨journal, hrun⟩ := evaluate_of_refused levels he ha
    rw [hrun] at hexc
    cases hexc
  · have he' := enter_withLimits hdepth hsteps he rfl
    obtain ⟨answer, heval⟩ := evaluate_eq_letIn levels pair
    obtain ⟨answer', heval'⟩ := evaluate_eq_letIn levels' pair
    have hassume : letIn pair answer s = assume pair _ := letInWith_of_cycle .plain answer he
    have hassume' : letIn pair answer' (s.withLimits l') = assume pair _ :=
      letInWith_of_cycle .plain answer' he'
    rw [heval, heval', hassume, hassume', assume, run_assumeWith, run_place, run_assumeWith, run_place]
    rfl
  · rw [he] at h
    exact absurd rfl h

/-- A pair that is let in is answered alike if the nested questions are. -/
theorem evaluate_withLimits_of_entered {s : Search} {levels levels' : Nat} {pair : Pair}
    {g : Guard Pair} (he : s.guard.enter pair = (.entered, g))
    (he' : (s.withLimits l').guard.enter pair = (.entered, { g with limits := l' }))
    (hnested : ∀ pair, InStep g.limits l' g.depth (evaluate levels pair) (evaluate levels' pair))
    (hexc : (evaluate (levels + 1) pair s).2.guard.exceeded = false) :
    evaluate (levels' + 1) pair (s.withLimits l') =
      ((evaluate (levels + 1) pair s).1, (evaluate (levels + 1) pair s).2.withLimits l') := by
  have hresolve := (congruence_inStep g.limits l' g.depth).resolve (substituteBy_inStep hnested)
    pair.source pair.target
  rw [evaluate_of_entered levels he, run_bind] at hexc ⊢
  rw [exceeded_settle] at hexc
  have hsame := hresolve.same _ rfl rfl hexc
  have hpushed : ({ s.withLimits l' with
      guard := { g with limits := l' }, stack := (s.withLimits l').stack.push pair, lowest := none } :
        Search) =
      ({ s with guard := g, stack := s.stack.push pair, lowest := none } : Search).withLimits l' := rfl
  rw [evaluate_of_entered levels' he', run_bind, ← settle_withLimits, hpushed, hsame]
  rfl

/-- Under limits and under more generous ones, questions are answered in step. -/
theorem evaluate_inStep {levels levels' : Nat} (hdepth : l.depth ≤ l'.depth)
    (hsteps : l.steps ≤ l'.steps) (hl : l.depth ≤ levels + n) (hl' : l'.depth ≤ levels' + n)
    (pair : Pair) : InStep l l' n (evaluate levels pair) (evaluate levels' pair) := by
  -- the depth that is left, on either side, is never less than the limit allows
  induction levels generalizing levels' n pair with
  | zero =>
    refine ⟨evaluate_frames _ _, fun s hlimits hn hexc => ?_⟩
    rcases entered_or s.guard pair with hent | ⟨hlt, -⟩
    · exact evaluate_withLimits_of_not_entered (hlimits ▸ hdepth) (hlimits ▸ hsteps) hent hexc
    · rw [hlimits, hn] at hlt
      omega
  | succ levels ih =>
    refine ⟨evaluate_frames _ _, fun s hlimits hn hexc => ?_⟩
    have hdepth' : s.guard.limits.depth ≤ l'.depth := hlimits ▸ hdepth
    have hsteps' : s.guard.limits.steps ≤ l'.steps := hlimits ▸ hsteps
    rcases entered_or s.guard pair with hent | ⟨hlt, k, he⟩
    · exact evaluate_withLimits_of_not_entered hdepth' hsteps' hent hexc
    · rw [hlimits, hn] at hlt
      obtain ⟨levels', rfl⟩ : ∃ k, levels' = k + 1 := ⟨levels' - 1, by omega⟩
      refine evaluate_withLimits_of_entered he (enter_withLimits hdepth' hsteps' he rfl) ?_ hexc
      intro pair
      dsimp only
      rw [hlimits, hn]
      exact ih (by omega) (by omega) pair

/-- A query that no limit refused anything is answered alike under more generous limits. -/
theorem check_withLimits {solver : Solver} (hdepth : l.depth ≤ l'.depth) (hsteps : l.steps ≤ l'.steps)
    {source target : Handle}
    (h : (check (some source) (some target) (.start solver l)).1.depthExceeded = false) :
    check (some source) (some target) (.start solver l') =
      ((check (some source) (some target) (.start solver l)).1,
        (check (some source) (some target) (.start solver l)).2.withLimits l') := by
  rw [check_some] at h ⊢
  split_ifs at h ⊢ with heq
  · rfl
  · set s := (lookup ⟨source, target⟩ (.start solver l)).2 with hs
    have hlookup : lookup ⟨source, target⟩ (.start solver l') =
        ((lookup ⟨source, target⟩ (.start solver l)).1, s.withLimits l') := rfl
    rw [run_bind] at h ⊢
    rw [run_bind, hlookup]
    cases hfound : (lookup ⟨source, target⟩ (.start solver l)).1 with
    | some verdict => rfl
    | none =>
      rw [hfound] at h
      have hsame := (evaluate_inStep hdepth hsteps (Nat.le_add_right l.depth 0)
        (Nat.le_add_right l'.depth 0) ⟨source, target⟩).same s rfl rfl h
      exact congrArg (fun r : Option Handle × Search =>
        ((⟨r.1, false, r.2.guard.exceeded⟩ : Answer), r.2)) hsame

end Search

namespace Solver

/-- Nor does a query that no limit refused anything do anything else to the solver. -/
theorem query_eq_of_le {limits limits' : Limits} (hdepth : limits.depth ≤ limits'.depth)
    (hsteps : limits.steps ≤ limits'.steps) {source target : Handle} {s : Solver}
    (h : (Solver.query limits (some source) (some target) s).1.depthExceeded = false) :
    Solver.query limits' (some source) (some target) s =
      Solver.query limits (some source) (some target) s := by
  obtain ⟨j, e, -, -, hrun⟩ := run_query (some source) (some target) s
  rw [hrun] at h
  rw [hrun, hrun, Search.check_withLimits hdepth hsteps h]
  rfl

theorem Served.limits_fail_safe {c : Chronicle} {s : Solver} (hc : c.univ.Built) (hs : s.Served c)
    (source target : Handle) (hsource : s.univ.contains source) (htarget : s.univ.contains target)
    (limits : Limits) :
    (∀ limits' : Limits, limits.depth ≤ limits'.depth → limits.steps ≤ limits'.steps →
      (Solver.query limits (some source) (some target) s).1.depthExceeded = false →
        Solver.query limits' (some source) (some target) s =
          Solver.query limits (some source) (some target) s) ∧
    ((Solver.query limits (some source) (some target) s).1.isRelated →
      s.univ.Sub source target ∧ ∀ limits' : Limits,
        (Solver.query limits' (some source) (some target) s).1.depthExceeded = false →
          (Solver.query limits' (some source) (some target) s).1.isRelated) := by
  refine ⟨fun limits' hdepth hsteps h => query_eq_of_le hdepth hsteps h, fun hrelated => ?_⟩
  obtain ⟨hexact, -⟩ := hs.exact hc.valid
  have hreply := fun limits => (hexact.query limits (Universe.reads_typeAt hsource)
    (Universe.reads_typeAt htarget)).2
  have hsub := (hreply limits).related hrelated
  refine ⟨by rw [Universe.Sub, hexact.signature]; exact hsub, fun limits' hexc => ?_⟩
  exact ((hreply limits').isRelated_iff hexc).2 hsub

/-- In the universe of the self-bounded interface, the query of `X` for the open `D<>` takes three
levels of depth; it is refused with two, and more do not change it. -/
theorem Served.limits_fail_safe_selfBounded :
    (Solver.query ⟨2, 4⟩ (some ⟨3⟩) (some ⟨2⟩) ⟨.selfBounded, {}⟩).1 = ⟨none, false, true⟩ ∧
    (Solver.query ⟨3, 4⟩ (some ⟨3⟩) (some ⟨2⟩) ⟨.selfBounded, {}⟩).1 = ⟨some ⟨5⟩, false, false⟩ ∧
    Solver.query .query (some ⟨3⟩) (some ⟨2⟩) ⟨.selfBounded, {}⟩ =
      Solver.query ⟨3, 4⟩ (some ⟨3⟩) (some ⟨2⟩) ⟨.selfBounded, {}⟩ ∧
    Chronicle.selfBounded.univ.Sub ⟨3⟩ ⟨2⟩ := by
  have hanswer : (Solver.query ⟨3, 4⟩ (some ⟨3⟩) (some ⟨2⟩) ⟨.selfBounded, {}⟩).1 =
      ⟨some ⟨5⟩, false, false⟩ := by cbv
  have h := limits_fail_safe Chronicle.built_selfBounded .new ⟨3⟩ ⟨2⟩ (by cbv) (by cbv)
    ⟨3, 4⟩
  refine ⟨by cbv, hanswer, h.1 .query (by decide) (by decide) ?_, (h.2 ?_).1⟩
  · rw [hanswer]
  · rw [hanswer]
    rfl

end Solver

end Subtyping
