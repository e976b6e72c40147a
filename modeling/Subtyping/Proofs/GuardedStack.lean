import Subtyping.Proofs.Grammar
import Subtyping.Proofs.Growth
import Subtyping.Proofs.Termination

/-!
# Guards are left as they were entered

Whatever a search is asked, its guard and its stack stay in step (`Search.Balanced`): the pairs in
progress are those on the stack, none of them twice, the depth is their number, and no pair was left that
was not in progress. A watch that raises an alarm where this fails (`Search.inspected`) never does, and a
pair that is met again is always found on the stack. Between any two queries to one search nothing is in
progress (`guards_left_as_entered`).

A gauge of depth has no keys: it comes back to where it was however the work that uses it ends, both for
replacing parameters (`UniverseM.fill_returns`) and for reading expressions
(`TypeExpr.Parser.expr_returns`).
-/

namespace Subtyping

namespace Search

open UniverseM

variable {α β : Type} {limits : Limits} {n : Nat} {s s' : Search} {pair : Pair}

/-! ## Searches in step -/

/-- The guard and the stack of a search are in step, and the answer in progress leans on pairs on the
stack only. -/
structure Balanced (s : Search) : Prop where
  visiting : ∀ p, p ∈ s.guard.visiting ↔ p ∈ s.stack
  nodup : s.stack.toList.Nodup
  depth : s.guard.depth = s.stack.size
  used : s.guard.misused = false
  lowest : ∀ place ∈ s.lowest, place < s.stack.size

theorem balanced_iff : s.Balanced ↔
    (∀ p ∈ s.guard.visiting.toList, p ∈ s.stack) ∧ (∀ p ∈ s.stack, p ∈ s.guard.visiting) ∧
      s.stack.toList.Nodup ∧ s.guard.depth = s.stack.size ∧ s.guard.misused = false ∧
        ∀ place ∈ s.lowest, place < s.stack.size := by
  constructor
  · intro h
    exact ⟨fun p hp => (h.visiting p).1 (Std.HashSet.mem_toList.1 hp), fun p hp => (h.visiting p).2 hp,
      h.nodup, h.depth, h.used, h.lowest⟩
  · rintro ⟨hvisiting, hstack, hnodup, hdepth, hused, hlowest⟩
    exact ⟨fun p => ⟨fun hp => hvisiting p (Std.HashSet.mem_toList.2 hp), hstack p⟩, hnodup, hdepth,
      hused, hlowest⟩

instance : Decidable s.Balanced :=
  decidable_of_iff _ balanced_iff.symm

theorem balanced_start (s : Solver) (limits : Limits) : (start s limits).Balanced :=
  ⟨fun p => by simp [start, Guard.new], List.nodup_nil, rfl, rfl, fun _ h => by cases h⟩

/-- What is left when nothing is in progress. -/
theorem Balanced.idle (h : s.Balanced) (hstack : s.stack = #[]) :
    s.guard.visiting.isEmpty ∧ s.guard.depth = 0 ∧ s.guard.misused = false ∧ s.lowest = none ∧
      s.guard.abandon? = none := by
  have hempty : s.guard.visiting.isEmpty := by
    rw [Std.HashSet.isEmpty_iff_forall_not_mem]
    intro p hp
    have hmem := (h.visiting p).1 hp
    simp [hstack] at hmem
  refine ⟨hempty, by rw [h.depth, hstack]; rfl, h.used, ?_, by rw [Guard.abandon?, if_pos hempty]⟩
  cases hlowest : s.lowest with
  | none => rfl
  | some place =>
    have hlt := h.lowest place hlowest
    simp [hstack] at hlt

/-! ## The watch -/

/-- Raises an alarm unless the guard and the stack are in step. -/
def inspect (alarm : SearchM Unit) : SearchM Unit := do
  if Balanced (← get) then
    return
  else
    alarm

theorem run_inspect (h : s.Balanced) (alarm : SearchM Unit) : inspect alarm s = ((), s) :=
  congrFun (if_pos h) s

/-- Raises an alarm where the guard and the stack are not in step, once a pair is on the stack and before
it is taken off, and asks `missing` for the place of a pair that is in progress and not on the stack. -/
def Hooks.inspecting (alarm : SearchM Unit) (missing : SearchM Nat) : Hooks SearchM :=
  { Hooks.plain with missing, watch := inspect alarm }

/-- Answers a question where `ask` answers those that it raises, with a watch on the guard and the
stack. -/
def inspected (alarm : SearchM Unit) (missing : SearchM Nat) (ask : Pair → SearchM (Option Handle))
    (pair : Pair) : SearchM (Option Handle) := do
  inspect alarm
  let answer ← askWith (.inspecting alarm missing) ask pair
  inspect alarm
  return answer

theorem Balanced.exists_place (h : s.Balanced) (hmem : pair ∈ s.guard.visiting) :
    ∃ place < s.stack.size, s.stack.idxOf? pair = some place := by
  cases hplace : s.stack.idxOf? pair with
  | none => exact absurd ((h.visiting pair).1 hmem) (Array.idxOf?_eq_none_iff.1 hplace)
  | some place =>
    rw [Array.idxOf?_eq_map_finIdxOf?_val, Option.map_eq_some_iff] at hplace
    obtain ⟨place, -, rfl⟩ := hplace
    exact ⟨place, place.isLt, rfl⟩

/-- A pair in progress is found on the stack. -/
theorem Balanced.letInWith_eq (h : s.Balanced) (alarm : SearchM Unit) (missing : SearchM Nat)
    (answer : SearchM (Option Handle)) :
    letInWith (.inspecting alarm missing) pair answer s = letIn pair answer s := by
  rw [letIn]
  rcases enter_cases s.guard pair with ⟨admission, k, ha, he⟩ | ⟨hmem, k, he⟩ | ⟨-, -, k, he⟩
  · rw [letInWith_of_refused _ answer he ha, letInWith_of_refused _ answer he ha]
    rfl
  · obtain ⟨place, -, hplace⟩ := h.exists_place hmem
    have hfound : ∀ hooks : Hooks SearchM, placeWith hooks pair { s with
        guard := { s.guard with steps := k } } = (place, { s with guard := { s.guard with steps := k } }) :=
      fun hooks => placeWith_of_place hooks hplace
    rw [letInWith_of_cycle _ answer he, letInWith_of_cycle _ answer he, run_assumeWith, run_assumeWith,
      hfound, hfound]
  · rw [letInWith_of_entered _ answer he, letInWith_of_entered _ answer he]

/-! ## What the watch sees -/

/-- A search in step with `n` pairs in progress. -/
structure Level (limits : Limits) (n : Nat) (s : Search) : Prop extends Balanced s where
  limits_eq : s.guard.limits = limits
  size : s.stack.size = n

theorem Level.of_eq (hs : Level limits n s) (hguard : s'.guard = s.guard) (hstack : s'.stack = s.stack)
    (hlowest : s'.lowest = s.lowest) : Level limits n s' where
  visiting p := by rw [hguard, hstack, hs.visiting]
  nodup := by rw [hstack]; exact hs.nodup
  depth := by rw [hguard, hstack, hs.depth]
  used := by rw [hguard, hs.used]
  lowest := by rw [hlowest, hstack]; exact hs.lowest
  limits_eq := by rw [hguard, hs.limits_eq]
  size := by rw [hstack, hs.size]

/-- Work that leaves the frame alone stays in step if no pair is left wrongly. -/
theorem Level.of_framed (hs : Level limits n s) (hf : s.Framed s') (hused : s'.guard.misused = false)
    (hlowest : ∀ place ∈ s'.lowest, place < n) : Level limits n s' where
  visiting p := by rw [hf.visiting, hf.stack, hs.visiting]
  nodup := by rw [hf.stack]; exact hs.nodup
  depth := by rw [hf.depth, hf.stack, hs.depth]
  used := hused
  lowest := by rw [hf.stack, hs.size]; exact hlowest
  limits_eq := by rw [hf.limits, hs.limits_eq]
  size := by rw [hf.stack, hs.size]

/-- A pair that is let in goes on the stack. -/
theorem Level.pushed (hs : Level limits n s) {k : Nat} (hmem : pair ∉ s.guard.visiting) :
    Level limits (n + 1) { s with
      guard := { s.guard with
        steps := k, visiting := s.guard.visiting.insert pair, depth := s.guard.depth + 1 }
      stack := s.stack.push pair
      lowest := none } where
  visiting p := by
    rw [Std.HashSet.mem_insert, Array.mem_push, hs.visiting, beq_iff_eq, or_comm, eq_comm]
  nodup := by
    rw [Array.toList_push, List.nodup_append]
    refine ⟨hs.nodup, List.nodup_singleton pair, ?_⟩
    rintro p hp q hq rfl
    rw [List.mem_singleton] at hq
    subst hq
    exact hmem ((hs.visiting p).2 (Array.mem_toList_iff.1 hp))
  depth := by simp [hs.depth]
  used := hs.used
  lowest := fun _ h => by cases h
  limits_eq := hs.limits_eq
  size := by simp [hs.size]

/-- Two pieces of work do the same to a search in step, and it stays so. -/
def Follows (limits : Limits) (n : Nat) (x x' : SearchM α) : Prop :=
  ∀ s, Level limits n s → x' s = x s ∧ Level limits n (x s).2

namespace Follows

theorem pure (a : α) : Follows limits n (pure a) (pure a) :=
  fun _ hs => ⟨rfl, hs⟩

theorem bind {x x' : SearchM α} {f f' : α → SearchM β} (hx : Follows limits n x x')
    (hf : ∀ a, Follows limits n (f a) (f' a)) : Follows limits n (x >>= f) (x' >>= f') := by
  intro s hs
  obtain ⟨heq, hafter⟩ := hx s hs
  rw [run_bind, run_bind, heq]
  exact hf _ _ hafter

theorem mapM {f f' : α → SearchM β} (h : ∀ a, Follows limits n (f a) (f' a)) (l : List α) :
    Follows limits n (l.mapM f) (l.mapM f') := by
  induction l with
  | nil => exact .pure _
  | cons a l ih =>
    rw [List.mapM_cons, List.mapM_cons]
    exact .bind (h a) fun _ => .bind ih fun _ => .pure _

end Follows

variable (limits n) in
theorem congruence_follows : Congruence SearchM SearchM (Follows limits n) where
  pure := .pure
  bind := .bind
  lift := fun _ _ hs => ⟨rfl, hs.of_eq rfl rfl rfl⟩
  refuse := fun _ hs => ⟨rfl, hs.of_eq rfl rfl rfl⟩

theorem lookup_follows (pair : Pair) : Follows limits n (lookup pair) (lookup pair) :=
  fun _ hs => ⟨rfl, hs.of_eq rfl rfl rfl⟩

theorem substituteBy_follows {ask ask' : Pair → SearchM (Option Handle)}
    (h : ∀ pair, Follows limits n (ask pair) (ask' pair)) (source target : Handle) :
    Follows limits n (substituteBy ask source target) (substituteBy ask' source target) := by
  refine Congruence.branch (P := Follows limits n) (.pure _)
    (.bind (lookup_follows _) fun found => ?_)
  cases found with
  | none => exact h _
  | some verdict => exact .bind (fun _ hs => ⟨rfl, hs.of_eq rfl rfl rfl⟩) fun _ => .pure _

theorem mem_outermost {a b : Option Nat} {place : Nat} (h : place ∈ outermost a b) :
    (∃ k ∈ a, place ≤ k) ∨ place ∈ b := by
  cases a with
  | none => exact .inr h
  | some k =>
    cases b with
    | none => exact .inl ⟨k, rfl, (Option.some.inj h).ge⟩
    | some l =>
      obtain rfl : min k l = place := Option.some.inj h
      exact .inl ⟨k, rfl, Nat.min_le_left k l⟩

/-- The answer around a pair leans on places further out than the pair. -/
theorem lowest_popped_lt {around : Option Nat} {place : Nat} (h : ∀ k ∈ around, k < place) :
    ∀ k ∈ (s.popped pair place around).lowest, k < place := by
  intro k hk
  dsimp only [popped] at hk
  split_ifs at hk with hprovisional
  · rcases mem_outermost hk with ⟨l, hl, hle⟩ | hlowest
    · exact Nat.lt_of_le_of_lt hle (h l hl)
    · rw [provisional, Option.mem_def.1 hlowest] at hprovisional
      simpa using hprovisional
  · exact h k hk

theorem settle_eq_popped (place before : Nat) (around : Option Nat) (computed : Option Handle) :
    (settle pair place around before computed s).2.guard = s.guard.leave pair ∧
      (settle pair place around before computed s).2.lowest = (s.popped pair place around).lowest := by
  rw [run_settle]
  split_ifs <;> exact ⟨rfl, rfl⟩

/-- A pair that is not let in does no harm. -/
theorem Level.evaluate_of_refused (hs : Level limits n s) (levels : Nat)
    (h : (s.guard.enter pair).1 ≠ .entered) : Level limits n (evaluate levels pair s).2 := by
  refine hs.of_framed (evaluate_frames levels pair s) ?_ ?_
  all_goals rcases enter_cases s.guard pair with ⟨admission, k, ha, he⟩ | ⟨hmem, k, he⟩ | ⟨-, -, k, he⟩
  · obtain ⟨journal, heval⟩ := Search.evaluate_of_refused levels he ha
    rw [heval]
    exact hs.used
  · obtain ⟨journal, heval⟩ := evaluate_of_cycle levels he
    rw [heval]
    exact hs.used
  · exact absurd (congrArg Prod.fst he) h
  · obtain ⟨journal, heval⟩ := Search.evaluate_of_refused levels he ha
    rw [heval, ← hs.size]
    exact hs.lowest
  · obtain ⟨journal, heval⟩ := evaluate_of_cycle levels he
    obtain ⟨place, hlt, hplace⟩ := hs.exists_place hmem
    rw [heval, hplace]
    intro k hk
    rcases mem_outermost hk with ⟨l, hl, hle⟩ | hk
    · exact Nat.lt_of_le_of_lt hle ((hs.lowest l hl).trans_eq hs.size)
    · obtain rfl : place = k := Option.some.inj hk
      exact hlt.trans_eq hs.size
  · exact absurd (congrArg Prod.fst he) h

/-- The watch on a pair that is not let in stays silent. -/
theorem Level.inspected_of_refused (hs : Level limits n s) (levels : Nat)
    (h : (s.guard.enter pair).1 ≠ .entered) (alarm : SearchM Unit) (missing : SearchM Nat)
    (ask : Pair → SearchM (Option Handle)) :
    inspected alarm missing ask pair s = evaluate levels pair s := by
  have hafter := hs.evaluate_of_refused levels h
  obtain ⟨answer, heval⟩ := evaluate_eq_letIn levels pair
  rw [heval] at hafter ⊢
  rw [inspected, run_bind, run_inspect hs.toBalanced, run_bind, askWith, hs.letInWith_eq,
    letIn_eq_of_ne_entered _ answer h, run_bind, run_inspect hafter.toBalanced]
  rfl

/-- Nor is there an alarm on a pair that is let in, if there is none on those that it leads to. -/
theorem Level.inspected_of_entered (hs : Level limits n s) {levels : Nat} {g : Guard Pair}
    (he : s.guard.enter pair = (.entered, g)) (alarm : SearchM Unit) (missing : SearchM Nat)
    {ask : Pair → SearchM (Option Handle)}
    (hask : ∀ pair, Follows limits (n + 1) (evaluate levels pair) (ask pair)) :
    inspected alarm missing ask pair s = evaluate (levels + 1) pair s ∧
      Level limits n (evaluate (levels + 1) pair s).2 := by
  obtain ⟨hmem, k, rfl⟩ : pair ∉ s.guard.visiting ∧ ∃ k, g =
      { s.guard with steps := k, visiting := s.guard.visiting.insert pair, depth := s.guard.depth + 1 } := by
    rcases enter_cases s.guard pair with ⟨_, k, ha, he'⟩ | ⟨-, k, he'⟩ | ⟨hmem, -, k, he'⟩
    · obtain ⟨rfl, -⟩ := Prod.mk.inj (he.symm.trans he')
      cases ha
    · cases congrArg Prod.fst (he.symm.trans he')
    · exact ⟨hmem, k, (Prod.mk.inj (he.symm.trans he')).2⟩
  have hpushed := hs.pushed (k := k) hmem
  obtain ⟨heq, hresolved⟩ := (congruence_follows limits (n + 1)).resolve (substituteBy_follows hask)
    pair.source pair.target _ hpushed
  have heval := evaluate_of_entered levels he
  rw [run_bind] at heval
  have hframed := resolve_frames (substituteBy_frames (evaluate_frames levels)) pair.source
    pair.target { s with
      guard := { s.guard with
        steps := k, visiting := s.guard.visiting.insert pair, depth := s.guard.depth + 1 }
      stack := s.stack.push pair
      lowest := none }
  have hafter : Level limits n (evaluate (levels + 1) pair s).2 := by
    refine hs.of_framed (evaluate_frames (levels + 1) pair s) ?_ ?_
    · rw [heval, (settle_eq_popped _ _ _ _).1, leave_of_mem ((hframed.visiting pair).2 (by simp))]
      exact hresolved.used
    · rw [heval, (settle_eq_popped _ _ _ _).2, ← hs.size]
      exact lowest_popped_lt hs.lowest
  have hanswer : ∀ t : Search, answerWith (.inspecting alarm missing) (substituteBy ask) pair t = (do
      inspect alarm
      let computed ← resolve (substituteBy ask) pair.source pair.target
      inspect alarm
      settle pair t.stack.size t.lowest t.refusals computed : SearchM (Option Handle))
        { t with stack := t.stack.push pair, lowest := none } := fun _ => rfl
  have hbody := hanswer { s with guard := { s.guard with
    steps := k, visiting := s.guard.visiting.insert pair, depth := s.guard.depth + 1 } }
  rw [run_bind, run_inspect hpushed.toBalanced, run_bind, heq, run_bind,
    run_inspect hresolved.toBalanced, ← heval] at hbody
  refine ⟨?_, hafter⟩
  rw [inspected, run_bind, run_inspect hs.toBalanced, run_bind, askWith, hs.letInWith_eq,
    letIn_of_entered _ he, hbody, run_bind, run_inspect hafter.toBalanced]
  rfl

/-- Unfolded beyond the depth that the limits allow, the search with a watch on its guard and its stack
is the search. -/
theorem evaluate_follows {levels levels' : Nat} (alarm : SearchM Unit) (missing : SearchM Nat)
    (beyond : Pair → SearchM (Option Handle)) (hn : n ≤ limits.depth) (h : limits.depth ≤ levels + n)
    (h' : limits.depth < levels' + n) (pair : Pair) :
    Follows limits n (evaluate levels pair)
      (unfolded (inspected alarm missing) beyond levels' pair) := by
  induction levels generalizing levels' n pair with
  | zero =>
    intro s hs
    obtain ⟨levels', rfl⟩ : ∃ k, levels' = k + 1 := ⟨levels' - 1, by omega⟩
    rcases entered_or s.guard pair with hne | ⟨hlt, -⟩
    · exact ⟨hs.inspected_of_refused 0 hne _ _ _, hs.evaluate_of_refused 0 hne⟩
    · rw [hs.limits_eq, hs.depth, hs.size] at hlt
      omega
  | succ levels ih =>
    intro s hs
    obtain ⟨levels', rfl⟩ : ∃ k, levels' = k + 1 := ⟨levels' - 1, by omega⟩
    rcases entered_or s.guard pair with hne | ⟨hlt, k, he⟩
    · exact ⟨hs.inspected_of_refused _ hne _ _ _, hs.evaluate_of_refused _ hne⟩
    · rw [hs.limits_eq, hs.depth, hs.size] at hlt
      exact hs.inspected_of_entered he alarm missing (ih (by omega) (by omega) (by omega))

/-! ## Queries to one search -/

/-- What a search can be asked from outside. -/
inductive Call where
  | check (source target : Option Handle)
  | satisfy (candidate target : Handle)

/-- Answers a call, where `evaluate` answers what is neither trivial nor on record. -/
def Call.answerBy (evaluate : Pair → SearchM (Option Handle)) : Call → SearchM Answer
  | .check source target => checkBy evaluate source target
  | .satisfy candidate target => do
    return { substitution := ← Search.satisfy (substituteBy evaluate) candidate target }

/-- Answers a call. -/
def Call.answer : Call → SearchM Answer
  | .check source target => Search.check source target
  | .satisfy candidate target => do
    return { substitution := ← Search.satisfy substitute candidate target }

theorem checkBy_follows {ask ask' : Pair → SearchM (Option Handle)}
    (h : ∀ pair, Follows limits n (ask pair) (ask' pair)) (source target : Option Handle) :
    Follows limits n (checkBy ask source target) (checkBy ask' source target) := by
  cases source with
  | none => exact .pure _
  | some source =>
    cases target with
    | none => exact .pure _
    | some target =>
      refine Congruence.branch (P := Follows limits n) (.pure _)
        (.bind (lookup_follows _) fun found => ?_)
      cases found with
      | some verdict => exact .pure _
      | none => exact .bind (h _) fun _ => .bind (fun s hs => ⟨rfl, hs⟩) fun _ => .pure _

theorem Call.answer_follows (alarm : SearchM Unit) (missing : SearchM Nat)
    (beyond : Pair → SearchM (Option Handle)) {levels : Nat} (hlevels : limits.depth < levels)
    (call : Call) :
    Follows limits 0 call.answer
      (call.answerBy (unfolded (inspected alarm missing) beyond levels)) := by
  have heval := evaluate_follows alarm missing beyond (Nat.zero_le _) (Nat.le_refl limits.depth) hlevels
  cases call with
  | check source target =>
    show Follows limits 0 (checkBy (fun pair => do evaluate (← get).guard.limits.depth pair) source target)
      (checkBy _ source target)
    refine checkBy_follows (fun pair s hs => ?_) source target
    have hdepth : (do evaluate (← get).guard.limits.depth pair : SearchM (Option Handle)) s =
        evaluate limits.depth pair s := by
      rw [← hs.limits_eq]
      rfl
    rw [hdepth]
    exact heval pair s hs
  | satisfy candidate target =>
    refine .bind ((congruence_follows limits 0).satisfy (fun source target s hs => ?_) candidate target)
      fun _ => .pure _
    have hdepth : substitute source target s = substituteBy (evaluate limits.depth) source target s := by
      rw [← hs.limits_eq]
      rfl
    rw [hdepth]
    exact substituteBy_follows heval source target s hs

end Search

/-! ## Gauges -/

theorem DepthGauge.enter_cases (g : DepthGauge) :
    g.enter = (false, g.exceededIf true) ∨ g.enter = (true, { g with depth := g.depth + 1 }) := by
  rw [enter, exceededIf_true]
  split_ifs
  · exact .inl rfl
  · exact .inr rfl

/-- A gauge that came back to zero may be given up. -/
theorem DepthGauge.abandon?_exceededIf (limit : Nat) (b : Bool) :
    ((new limit).exceededIf b).depth = 0 ∧ ((new limit).exceededIf b).misused = false ∧
      ((new limit).exceededIf b).abandon? = none :=
  ⟨rfl, rfl, rfl⟩

namespace UniverseM

variable {α β : Type}

/-- Work on a universe from which the gauge comes back to where it was, however often it was exceeded. -/
def Returns (x : Nested α) : Prop :=
  ∀ g c, ∃ b, (x g c).1.2 = g.exceededIf b

namespace Returns

theorem pure (a : α) : Returns (pure a) :=
  fun g _ => ⟨false, g.exceededIf_false.symm⟩

theorem bind {x : Nested α} {f : α → Nested β} (hx : Returns x) (hf : ∀ a, Returns (f a)) :
    Returns (x >>= f) := by
  intro g c
  obtain ⟨b, hb⟩ := hx g c
  obtain ⟨b', hb'⟩ := hf (x g c).1.1 (x g c).1.2 (x g c).2
  refine ⟨b || b', ?_⟩
  rw [← DepthGauge.exceededIf_exceededIf, ← hb]
  exact hb'

theorem lift (x : UniverseM α) : Returns (liftM x : Nested α) :=
  fun g _ => ⟨false, g.exceededIf_false.symm⟩

theorem mapM {f : α → Nested β} (hf : ∀ a, Returns (f a)) (l : List α) : Returns (l.mapM f) := by
  induction l with
  | nil => exact .pure _
  | cons a l ih =>
    rw [List.mapM_cons]
    exact .bind (hf a) fun _ => .bind ih fun _ => .pure _

/-- Work one level deeper, if the gauge allows it. -/
theorem deeper {x : Nested α} {k : α → Nested β} {y : Nested β} (hx : Returns x) (hk : ∀ a, Returns (k a))
    (hy : Returns y) : Returns (do
      if ← Nested.enter then do
        let a ← x
        Nested.leave
        k a
      else y) := by
  intro g c
  have hrun : ∀ z : Bool → Nested β, (Nested.enter >>= z) g c = z g.enter.1 g.enter.2 c := fun _ => rfl
  rcases g.enter_cases with henter | henter
  · obtain ⟨b, hb⟩ := hy (g.exceededIf true) c
    refine ⟨true || b, ?_⟩
    rw [← DepthGauge.exceededIf_exceededIf, ← hb, hrun, henter]
    rfl
  · obtain ⟨b, hb⟩ := hx { g with depth := g.depth + 1 } c
    have hleave : (x { g with depth := g.depth + 1 } c).1.2.leave = g.exceededIf b := by
      rw [hb, DepthGauge.leave_exceededIf]
    obtain ⟨b', hb'⟩ := hk (x { g with depth := g.depth + 1 } c).1.1 (g.exceededIf b)
      (x { g with depth := g.depth + 1 } c).2
    refine ⟨b || b', ?_⟩
    rw [← DepthGauge.exceededIf_exceededIf, ← hb', ← hleave, hrun, henter]
    rfl

end Returns

/-- Replacing parameters comes up from every level that it goes down to. -/
theorem fill_returns (owner : DeclId) (args : List Handle) (levels : Nat) (ty : Handle) :
    Returns (fill owner args levels ty) := by
  induction levels generalizing ty with
  | zero =>
    unfold fill
    refine .bind (.lift _) fun shape => ?_
    split
    · exact .pure _
    · exact Returns.deeper (x := pure ()) (.pure ()) (fun _ => .pure _) (.pure _)
    · exact .pure _
  | succ levels ih =>
    unfold fill
    refine .bind (.lift _) fun shape => ?_
    split
    · exact .pure _
    · refine Returns.deeper (.mapM ih _) (fun new => ?_) (.pure _)
      split
      · exact .pure _
      · exact .lift _
    · exact .pure _

end UniverseM

namespace TypeExpr.Parser

variable {α β : Type}

/-- Reading from which the gauge comes back to where it was, however it ends. -/
def Returns (x : Parser α) : Prop :=
  ∀ s, ∃ b, (x.run s).2.gauge = s.gauge.exceededIf b

namespace Returns

theorem pure (a : α) : Returns (pure a) :=
  fun s => ⟨false, s.gauge.exceededIf_false.symm⟩

theorem throw (e : ParseError) : Returns (throw e : Parser α) :=
  fun s => ⟨false, s.gauge.exceededIf_false.symm⟩

theorem get : Returns (get : Parser Cursor) :=
  fun s => ⟨false, s.gauge.exceededIf_false.symm⟩

theorem modify {f : Cursor → Cursor} (hf : ∀ s, (f s).gauge = s.gauge) :
    Returns (modify f : Parser Unit) :=
  fun s => ⟨false, (hf s).trans s.gauge.exceededIf_false.symm⟩

theorem bind {x : Parser α} {f : α → Parser β} (hx : Returns x) (hf : ∀ a, Returns (f a)) :
    Returns (x >>= f) := by
  intro s
  obtain ⟨b, hb⟩ := hx s
  cases hrun : x.run s with
  | mk result s' =>
    rw [hrun] at hb
    have hbind : (x >>= f).run s = (ExceptT.bindCont f result : StateM Cursor _) s' := by
      show (x.run >>= ExceptT.bindCont f) s = _
      show ExceptT.bindCont f (x.run s).1 (x.run s).2 = _
      rw [hrun]
    rw [hbind]
    cases result with
    | error e => exact ⟨b, hb⟩
    | ok a =>
      obtain ⟨b', hb'⟩ := hf a s'
      refine ⟨b || b', ?_⟩
      rw [← DepthGauge.exceededIf_exceededIf, ← hb]
      exact hb'

end Returns

theorem peekMark_returns : Returns peekMark := by
  refine .bind .get fun s => ?_
  split
  · exact .pure _
  · exact .pure _

theorem accept_returns (c : Char) : Returns (accept c) := by
  refine .bind peekMark_returns fun mark => ?_
  split
  · exact .bind (.modify fun _ => rfl) fun _ => .pure _
  · exact .pure _

theorem expect_returns (c : Char) : Returns (expect c) := by
  refine .bind .get fun s => ?_
  split
  · exact .throw _
  · split
    · exact .modify fun _ => rfl
    · exact .throw _

theorem typeName_returns : Returns typeName := by
  refine .bind .get fun s => ?_
  split
  · exact .bind (.modify fun _ => rfl) fun _ => .pure _
  · exact .throw _

theorem commas_returns (bound : Nat) : Returns (commas bound) := by
  induction bound with
  | zero => exact .pure _
  | succ bound ih =>
    refine .bind (accept_returns ',') fun more => ?_
    split
    · exact .bind ih fun _ => .pure _
    · exact .pure _

section Inner

variable {inner : Parser TypeExpr} (h : Returns inner)
include h

theorem others_returns (bound : Nat) : Returns (others inner bound) := by
  induction bound with
  | zero => exact .pure _
  | succ bound ih =>
    refine .bind (accept_returns ',') fun more => ?_
    split
    · exact .bind h fun _ => .bind ih fun _ => .pure _
    · exact .pure _

theorem exprWith_returns : Returns (exprWith inner) := by
  refine .bind typeName_returns fun name => .bind (accept_returns '<') fun opened => ?_
  split
  · refine .bind .get fun s => .bind peekMark_returns fun mark => ?_
    split
    · exact .bind (commas_returns _) fun _ => .bind (expect_returns '>') fun _ => .pure _
    · exact .bind (commas_returns _) fun _ => .bind (expect_returns '>') fun _ => .pure _
    · exact .bind h fun _ => .bind (others_returns h _) fun _ =>
        .bind (expect_returns '>') fun _ => .pure _
  · exact .pure _

end Inner

theorem deeper_returns {x : Parser α} (hx : Returns x) : Returns (do
    unless ← enter do
      throw .tooDeep
    deeper x) := by
  intro s
  have hrun : (do
      unless ← enter do
        throw .tooDeep
      deeper x : Parser α).run s = (do
      unless s.gauge.enter.1 do
        throw .tooDeep
      deeper x : Parser α).run { s with gauge := s.gauge.enter.2 } := rfl
  rcases s.gauge.enter_cases with henter | henter
  · rw [hrun, henter]
    exact ⟨true, rfl⟩
  · obtain ⟨b, hb⟩ := hx { s with gauge := { s.gauge with depth := s.gauge.depth + 1 } }
    refine ⟨b, ?_⟩
    rw [hrun, henter]
    show ((deeper x).run _).2.gauge = _
    rw [run_deeper, hb, DepthGauge.leave_exceededIf]

/-- Reading an expression comes up from every level that it goes down to. -/
theorem expr_returns (levels : Nat) : Returns (expr levels) := by
  induction levels with
  | zero => exact deeper_returns (.throw _)
  | succ levels ih => exact deeper_returns (exprWith_returns ih)

theorem whole_returns : Returns whole := by
  refine .bind (expr_returns _) fun e => .bind .get fun s => ?_
  split
  · exact .pure _
  · exact .throw _

end TypeExpr.Parser

/-- Between any two calls to one search nothing is in progress, its guard was never left wrongly and may
be given up. On the way, a watch on the guard and the stack never raises an alarm, nor is a pair that is
met again missing on the stack. The gauges of replacing parameters and of reading expressions are back at
zero when the work is over, whether or not it succeeds. -/
theorem guards_left_as_entered :
    (∀ (solver : Solver) (limits : Limits) (calls : List Search.Call),
      let r := calls.mapM Search.Call.answer (.start solver limits)
      (r.2.stack = #[] ∧ r.2.guard.visiting.isEmpty ∧ r.2.guard.depth = 0 ∧ r.2.lowest = none ∧
        r.2.guard.misused = false ∧ r.2.guard.abandon? = none) ∧
      ∀ alarm missing beyond more,
        calls.mapM (Search.Call.answerBy
          (unfolded (Search.inspected alarm missing) beyond (limits.depth + more + 1)))
          (.start solver limits) = r) ∧
    (∀ (owner : DeclId) (args : List Handle) (limit : Nat) (ty : Handle) (c : Chronicle),
      let g := (UniverseM.fill owner args limit ty (.new limit) c).1.2
      g.depth = 0 ∧ g.misused = false ∧ g.abandon? = none) ∧
    ∀ input : String,
      let g := (TypeExpr.Parser.whole.run
        { rest := TypeExpr.Token.ofText input, gauge := .new TypeExpr.maxLevel }).2.gauge
      g.depth = 0 ∧ g.misused = false ∧ g.abandon? = none := by
  refine ⟨fun solver limits calls => ?_, fun owner args limit ty c => ?_, fun input => ?_⟩
  · have hstart : Search.Level limits 0 (.start solver limits) :=
      ⟨Search.balanced_start solver limits, rfl, rfl⟩
    have hfollows : ∀ alarm missing beyond more, _ := fun alarm missing beyond more =>
      Search.Follows.mapM
        (Search.Call.answer_follows alarm missing beyond (Nat.lt_succ_of_le (Nat.le_add_right _ more)))
        calls _ hstart
    obtain ⟨-, hafter⟩ := hfollows (pure ()) (pure 0) (fun _ => pure none) 0
    have hstack := Array.eq_empty_of_size_eq_zero hafter.size
    obtain ⟨hempty, hdepth, hused, hlowest, hdrop⟩ := hafter.idle hstack
    exact ⟨⟨hstack, hempty, hdepth, hlowest, hused, hdrop⟩,
      fun alarm missing beyond more => (hfollows alarm missing beyond more).1⟩
  · obtain ⟨b, hb⟩ := UniverseM.fill_returns owner args limit ty (.new limit) c
    rw [hb]
    exact DepthGauge.abandon?_exceededIf limit b
  · obtain ⟨b, hb⟩ := TypeExpr.Parser.whole_returns
      { rest := TypeExpr.Token.ofText input, gauge := .new TypeExpr.maxLevel }
    rw [hb]
    exact DepthGauge.abandon?_exceededIf TypeExpr.maxLevel b

end Subtyping
