import Subtyping.Proofs.OpenDefinitions
import Subtyping.Proofs.Termination

/-!
# What the depth limit counts

Without limits, a pair that is asked for while it is in progress is a cycle, and any other pair is let in
(`Search.letInFreely`). Such a search may be watched for pairs that are asked for too deeply inside
(`Search.freely`). It comes to an end without meeting one if, unfolded often enough, it gives the same
whatever would be done with such a pair and beyond (`Search.EndsFreely`).

A search under limits goes on like one without as long as every pair is asked for while fewer are in
progress than the limit on the depth allows, and the steps suffice; and if it is refused nothing, this is
how it was (`Search.freely_attains`, `Search.evaluate_attains`). A pair in progress is no exception: asked
for while as many pairs are in progress as allowed, it is refused before it is seen to be a cycle. So the
limit has to be greater than the number of pairs that are ever in progress at once, unless no cycle closes
while so many are (`Solver.depth_limit_exact`).
-/

namespace Subtyping

/-! ## Letting pairs in without limits -/

namespace Guard

/-- Counts a step. -/
def count {α : Type} [BEq α] [Hashable α] (g : Guard α) : Guard α :=
  { g with steps := min (g.steps + 1) Limits.counterCap }

/-- Takes a key in, whatever the limits. -/
def takeIn {α : Type} [BEq α] [Hashable α] (g : Guard α) (key : α) : Guard α :=
  { g with visiting := g.visiting.insert key, depth := g.depth + 1 }

/-- While there are steps left, the depth decides first, and then whether the key is in progress. -/
theorem enter_of_steps {g : Guard Pair} (pair : Pair) (hsteps : g.count.steps ≤ g.limits.steps) :
    g.enter pair =
      if g.limits.depth ≤ g.depth then (.depthExceeded, { g.count with exceeded := true })
      else if g.visiting.contains pair then (.cycle, g.count)
      else (.entered, g.count.takeIn pair) := by
  have hsteps' : ¬ g.limits.steps < min (g.steps + 1) Limits.counterCap := Nat.not_lt.2 hsteps
  unfold enter
  dsimp only
  rw [if_neg hsteps']
  rfl

/-- Beyond the limits, any key is refused. -/
theorem enter_of_beyond {g : Guard Pair} (pair : Pair)
    (h : g.limits.steps < g.count.steps ∨ g.limits.depth ≤ g.depth) :
    ∃ admission, admission.isExceeded ∧
      g.enter pair = (admission, { g.count with exceeded := true }) := by
  unfold enter
  dsimp only
  split_ifs with hsteps hdepth
  · exact ⟨.stepsExceeded, rfl, rfl⟩
  · exact ⟨.depthExceeded, rfl, rfl⟩
  · exact absurd h (by rintro (h | h) <;> contradiction)
  · exact absurd h (by rintro (h | h) <;> contradiction)

end Guard

namespace Search

open UniverseM

variable {α β : Type} {l : Limits} {n d : Nat} {s : Search} {pair : Pair}

/-- Lets a pair in without regard to limits. The step is counted; a pair that is in progress is assumed to
hold, and any other one is answered as given. -/
def letInFreely (pair : Pair) (answer : SearchM (Option Handle)) : SearchM (Option Handle) := do
  modify fun s => { s with guard := s.guard.count }
  if (← get).guard.visiting.contains pair then
    assume pair
  else
    modify fun s => { s with guard := s.guard.takeIn pair }
    answer

/-- Answers a question without regard to limits, where `ask` answers those that it raises. A pair that is
asked for where it should not be is left to `alarm`. -/
def freely (allowed : Search → Pair → Bool) (alarm ask : Pair → SearchM (Option Handle))
    (pair : Pair) : SearchM (Option Handle) := do
  if allowed (← get) pair then
    letInFreely pair (answerBy (substituteBy ask) pair)
  else
    alarm pair

/-- Without limits, a query comes to an end with an answer, after so many steps. On the way no pair is
asked for where it should not be. -/
def EndsFreely (allowed : Search → Pair → Bool) (source target : Handle) (s : Search) (a : Answer)
    (steps : Nat) : Prop :=
  ∃ levels, ∀ alarm beyond,
    let r := checkBy (unfolded (freely allowed alarm) beyond levels) (some source) (some target) s
    r.1 = a ∧ r.2.guard.steps = steps

/-- A pair is asked for while fewer than `d` are in progress. -/
def fewer (d : Nat) (s : Search) (_ : Pair) : Bool :=
  s.stack.size < d

/-- A pair is in progress, or asked for while fewer than `d` are. -/
def fewerIfNew (d : Nat) (s : Search) (pair : Pair) : Bool :=
  s.guard.visiting.contains pair || s.stack.size < d

theorem letInFreely_of_mem (answer : SearchM (Option Handle)) (h : s.guard.visiting.contains pair) :
    letInFreely pair answer s = assume pair { s with guard := s.guard.count } :=
  congrFun (if_pos h) _

theorem letInFreely_of_not_mem (answer : SearchM (Option Handle))
    (h : ¬ s.guard.visiting.contains pair) :
    letInFreely pair answer s = answer { s with guard := s.guard.count.takeIn pair } :=
  congrFun (if_neg h) _

/-- Within the limits, they do not matter. -/
theorem letIn_eq_letInFreely (answer : SearchM (Option Handle))
    (hsteps : s.guard.count.steps ≤ s.guard.limits.steps)
    (hdepth : s.guard.depth < s.guard.limits.depth) :
    letIn pair answer s = letInFreely pair answer s := by
  have he := Guard.enter_of_steps pair hsteps
  rw [if_neg (Nat.not_le.2 hdepth)] at he
  by_cases hmem : s.guard.visiting.contains pair
  · rw [if_pos hmem] at he
    rw [letInFreely_of_mem _ hmem]
    exact letInWith_of_cycle .plain answer he
  · rw [if_neg hmem] at he
    rw [letIn_of_entered _ he, letInFreely_of_not_mem _ hmem]

theorem run_freely (allowed : Search → Pair → Bool) (alarm ask : Pair → SearchM (Option Handle))
    (pair : Pair) (s : Search) : freely allowed alarm ask pair s =
      if allowed s pair then letInFreely pair (answerBy (substituteBy ask) pair) s else alarm pair s := by
  show (if allowed s pair = true then _ else _ : SearchM (Option Handle)) s = _
  split_ifs <;> rfl

theorem run_answerBy (nested : Nested SearchM) (pair : Pair) (s : Search) : answerBy nested pair s =
    (resolve nested pair.source pair.target >>= settle pair s.stack.size s.lowest s.refusals)
      { s with stack := s.stack.push pair, lowest := none } :=
  rfl

/-! ## The guard along a search -/

/-- What work does to the guard, from every state. -/
def Guards (R : Guard Pair → Guard Pair → Prop) (x : SearchM α) : Prop :=
  ∀ s : Search, R s.guard (x s).2.guard

/-- What is kept along a search without limits, on the side of the guard. -/
structure Guarding (R : Guard Pair → Guard Pair → Prop) : Prop where
  refl : ∀ g, R g g
  trans : ∀ {g g' g''}, R g g' → R g' g'' → R g g''
  leave : ∀ g pair, R g (g.leave pair)

namespace Guarding

variable {R : Guard Pair → Guard Pair → Prop} (hR : Guarding R)
include hR

theorem congruence : Congruence SearchM SearchM fun x _ => Guards R x where
  pure _ s := hR.refl s.guard
  bind hx hf s := hR.trans (hx s) (hf _ _)
  lift _ s := hR.refl s.guard
  refuse s := hR.refl s.guard

theorem substituteBy {ask : Pair → SearchM (Option Handle)} (h : ∀ pair, Guards R (ask pair))
    (source target : Handle) : Guards R (substituteBy ask source target) := by
  intro s
  rw [Search.substituteBy]
  split_ifs
  · exact hR.refl _
  · rw [run_bind]
    cases (lookup ⟨source, target⟩ s).1 with
    | none => exact h ⟨source, target⟩ (lookup ⟨source, target⟩ s).2
    | some verdict => exact hR.refl _

theorem settle (place before : Nat) (around : Option Nat) (computed : Option Handle) :
    Guards R (settle pair place around before computed) := by
  intro s
  rw [run_settle]
  split_ifs <;> exact hR.leave s.guard pair

theorem answerBy {ask : Pair → SearchM (Option Handle)} (h : ∀ pair, Guards R (ask pair))
    (pair : Pair) : Guards R (answerBy (Search.substituteBy ask) pair) := by
  intro s
  have hresolve := hR.congruence.resolve_of_forall (hR.substituteBy h) pair.source pair.target
    { s with stack := s.stack.push pair, lowest := none }
  rw [run_answerBy, run_bind]
  exact hR.trans hresolve (hR.settle _ _ _ _ _)

theorem evaluate (henter : ∀ g pair, R g (g.enter pair).2) (levels : Nat) (pair : Pair) :
    Guards R (evaluate levels pair) := by
  have hletIn : ∀ pair answer, Guards R answer → Guards R (letIn pair answer) := by
    intro pair answer h s
    have hstep := henter s.guard pair
    by_cases hadm : (s.guard.enter pair).1 = .entered
    · obtain ⟨g, he⟩ : ∃ g, s.guard.enter pair = (.entered, g) := ⟨_, Prod.ext hadm rfl⟩
      rw [he] at hstep
      rw [letIn_of_entered _ he]
      exact hR.trans hstep (h { s with guard := g })
    · rwa [(letIn_of_ne_entered answer hadm).1]
  induction levels generalizing pair with
  | zero => exact hletIn _ _ fun s => hR.leave s.guard pair
  | succ levels ih => exact hletIn _ _ (hR.answerBy ih pair)

theorem letInFreely (hcount : ∀ g, R g g.count) (htakeIn : ∀ g pair, R g (g.takeIn pair))
    {answer : SearchM (Option Handle)} (h : Guards R answer) :
    Guards R (letInFreely pair answer) := by
  intro s
  by_cases hmem : s.guard.visiting.contains pair
  · rw [letInFreely_of_mem _ hmem, guard_assume]
    exact hcount s.guard
  · rw [letInFreely_of_not_mem _ hmem]
    exact hR.trans (hR.trans (hcount _) (htakeIn _ pair)) (h { s with guard := s.guard.count.takeIn pair })

theorem freely (hcount : ∀ g, R g g.count) (htakeIn : ∀ g pair, R g (g.takeIn pair))
    (allowed : Search → Pair → Bool) {alarm beyond : Pair → SearchM (Option Handle)}
    (halarm : ∀ pair, Guards R (alarm pair)) (hbeyond : ∀ pair, Guards R (beyond pair)) (levels : Nat)
    (pair : Pair) : Guards R (unfolded (freely allowed alarm) beyond levels pair) := by
  induction levels generalizing pair with
  | zero => exact hbeyond pair
  | succ levels ih =>
    intro s
    rw [unfolded, run_freely]
    split_ifs
    · exact hR.letInFreely hcount htakeIn (hR.answerBy ih pair) s
    · exact halarm pair s

theorem checkBy (ask : Pair → SearchM (Option Handle)) (h : ∀ pair, Guards R (ask pair))
    (source target : Handle) : Guards R (checkBy ask (some source) (some target)) := by
  intro s
  rw [Search.checkBy]
  split_ifs
  · exact hR.refl _
  · rw [run_bind]
    cases (lookup ⟨source, target⟩ s).1 with
    | some verdict => exact hR.refl _
    | none => exact h ⟨source, target⟩ (lookup ⟨source, target⟩ s).2

end Guarding

/-- A limit has refused something, or more steps are counted than allowed. -/
def Spent (l : Limits) (g : Guard Pair) : Prop :=
  g.exceeded ∨ l.steps < g.steps

/-- The count of steps does not pass its cap, and what is spent stays spent. -/
def Spends (l : Limits) (g g' : Guard Pair) : Prop :=
  g.steps ≤ Limits.counterCap → g'.steps ≤ Limits.counterCap ∧ (Spent l g → Spent l g')

theorem guarding_spends (l : Limits) : Guarding (Spends l) where
  refl _ h := ⟨h, id⟩
  trans h h' hg := ⟨(h' (h hg).1).1, fun hs => (h' (h hg).1).2 ((h hg).2 hs)⟩
  leave g pair hg := by
    rw [Spent, Spent, exceeded_leave, steps_leave]
    exact ⟨hg, id⟩

theorem spends_count (g : Guard Pair) : Spends l g g.count := by
  refine fun hg => ⟨Nat.min_le_right _ _, fun h => h.imp_right fun hlt => ?_⟩
  show l.steps < min (g.steps + 1) Limits.counterCap
  omega

theorem spends_takeIn (g : Guard Pair) (pair : Pair) : Spends l g (g.takeIn pair) :=
  fun hg => ⟨hg, id⟩

theorem spends_enter (g : Guard Pair) (pair : Pair) : Spends l g (g.enter pair).2 := by
  intro hg
  have hsteps := steps_enter g pair
  refine ⟨by omega, fun h => ?_⟩
  rcases enter_cases g pair with ⟨a, k, -, he⟩ | ⟨-, k, he⟩ | ⟨-, -, k, he⟩
  · rw [he]
    exact Or.inl rfl
  all_goals
    rw [he] at hsteps ⊢
    dsimp only at hsteps
    exact h.imp_right fun hlt => by dsimp only; omega

theorem evaluate_spends (levels : Nat) (pair : Pair) : Guards (Spends l) (evaluate levels pair) :=
  (guarding_spends l).evaluate spends_enter levels pair

/-- Without limits, and with nothing done where a pair should not have been asked for, nothing is ever
refused. -/
theorem exceeded_freely (allowed : Search → Pair → Bool) (levels : Nat) (source target : Handle)
    (s : Search) : (checkBy (unfolded (freely allowed fun _ => pure none) (fun _ => pure none) levels)
      (some source) (some target) s).2.guard.exceeded = s.guard.exceeded := by
  have hR : Guarding fun g g' => g'.exceeded = g.exceeded :=
    ⟨fun _ => rfl, fun h h' => h'.trans h, exceeded_leave⟩
  exact hR.checkBy _ (hR.freely (fun _ => rfl) (fun _ _ => rfl) allowed (fun _ _ => rfl)
    (fun _ _ => rfl) levels) source target s

/-- More steps are counted than allowed only if something was refused. -/
def Honest (l : Limits) (g : Guard Pair) : Prop :=
  g.limits = l ∧ (l.steps < g.steps → g.exceeded)

theorem guarding_honest (l : Limits) : Guarding fun g g' => Honest l g → Honest l g' := by
  refine ⟨fun _ => id, fun h h' hg => h' (h hg), fun g pair => ?_⟩
  unfold Guard.leave Guard.leave?
  split_ifs <;> exact id

theorem Honest.enter {g : Guard Pair} (h : Honest l g) (pair : Pair) : Honest l (g.enter pair).2 := by
  obtain ⟨rfl, -⟩ := h
  refine ⟨limits_enter g pair, fun hlt => ?_⟩
  rw [steps_enter] at hlt
  obtain ⟨a, -, he⟩ := Guard.enter_of_beyond pair (Or.inl hlt)
  rw [he]

/-- A search under limits that is refused nothing takes no more steps than allowed. -/
theorem steps_check_le {source target : Handle} (solver : Solver)
    (h : (check (some source) (some target) (.start solver l)).2.guard.exceeded = false) :
    (check (some source) (some target) (.start solver l)).2.guard.steps ≤ l.steps := by
  have hR := guarding_honest l
  have hfinal := hR.checkBy (fun pair => do evaluate (← get).guard.limits.depth pair)
    (fun pair s => hR.evaluate (fun _ pair hg => hg.enter pair) _ pair s) source target (.start solver l)
    ⟨rfl, fun hlt => absurd hlt (Nat.not_lt_zero _)⟩
  by_contra hlt
  exact Bool.false_ne_true (h.symm.trans (hfinal.2 (Nat.lt_of_not_le hlt)))

/-! ## Searches with and without limits -/

/-- Raises the mark of a refusal. -/
def raised : SearchM (Option Handle) := do
  modify fun s => { s with guard := { s.guard with exceeded := true } }
  return none

/-- A search with `n` pairs in progress. -/
structure InProgress (l : Limits) (n : Nat) (s : Search) : Prop where
  limits_eq : s.guard.limits = l
  depth : s.guard.depth = n
  stack : s.stack.size = n
  steps_le : s.guard.steps ≤ Limits.counterCap

theorem InProgress.framed {s' : Search} (h : InProgress l n s) (hf : s.Framed s')
    (hsteps : s'.guard.steps ≤ Limits.counterCap) : InProgress l n s' :=
  ⟨hf.limits.trans h.limits_eq, hf.depth.trans h.depth,
    (congrArg Array.size hf.stack).trans h.stack, hsteps⟩

/-- Where the limits are not spent in the end, the second piece of work does the same as the first. -/
structure Attains (l : Limits) (n : Nat) (x x' : SearchM α) : Prop where
  spends : Guards (Spends l) x
  same : ∀ s, InProgress l n s → ¬ Spent l (x s).2.guard → x' s = x s ∧ s.Framed (x s).2

namespace Attains

theorem of_framed {x : SearchM α} (hx : ∀ s, (x s).2.guard = s.guard) (hf : Frames x) :
    Attains l n x x := by
  refine ⟨fun s => ?_, fun s _ _ => ⟨rfl, hf s⟩⟩
  rw [hx]
  exact (guarding_spends l).refl _

theorem bind {x x' : SearchM α} {f f' : α → SearchM β} (hx : Attains l n x x')
    (hf : ∀ a, Attains l n (f a) (f' a)) : Attains l n (x >>= f) (x' >>= f') := by
  refine ⟨fun s => (guarding_spends l).trans (hx.spends s) ((hf _).spends _), fun s hs hspent => ?_⟩
  rw [run_bind] at hspent ⊢
  have hsteps := (hx.spends s hs.steps_le).1
  -- what is spent by the end of the first part is spent in the end
  have hspent' : ¬ Spent l (x s).2.guard := fun h => hspent (((hf _).spends _ hsteps).2 h)
  obtain ⟨heq, hframed⟩ := hx.same s hs hspent'
  obtain ⟨heq', hframed'⟩ := (hf _).same _ (hs.framed hframed hsteps) hspent
  rw [run_bind, heq]
  exact ⟨heq', hframed.trans hframed'⟩

end Attains

variable (l n) in
theorem congruence_attains : Congruence SearchM SearchM (Attains l n) where
  pure a := .of_framed (fun _ => rfl) (.pure a)
  bind := .bind
  lift hx := .of_framed (fun _ => rfl) (.lift hx.quiet)
  refuse := .of_framed (fun _ => rfl) refuse_frames

theorem substituteBy_attains {ask ask' : Pair → SearchM (Option Handle)}
    (h : ∀ pair, Attains l n (ask pair) (ask' pair)) (source target : Handle) :
    Attains l n (substituteBy ask source target) (substituteBy ask' source target) := by
  refine Congruence.branch (P := Attains l n) ((congruence_attains l n).pure _)
    (.bind (.of_framed (fun _ => rfl) (lookup_frames _)) fun found => ?_)
  cases found with
  | none => exact h _
  | some verdict =>
    exact .bind (.of_framed (fun _ => rfl) (.lift (.note nofun))) fun _ => (congruence_attains l n).pure _

/-- A pair that is let in without regard to limits is answered alike if the questions that it raises
are. -/
theorem letInFreely_attains {ask ask' : Pair → SearchM (Option Handle)} (hs : InProgress l n s)
    (hask : ¬ s.guard.visiting.contains pair → ∀ pair, Attains l (n + 1) (ask pair) (ask' pair))
    (hspent : ¬ Spent l (letInFreely pair (answerBy (substituteBy ask) pair) s).2.guard) :
    letInFreely pair (answerBy (substituteBy ask') pair) s =
      letInFreely pair (answerBy (substituteBy ask) pair) s := by
  by_cases hmem : s.guard.visiting.contains pair
  · rw [letInFreely_of_mem _ hmem, letInFreely_of_mem _ hmem]
  · rw [letInFreely_of_not_mem _ hmem, run_answerBy, run_bind] at hspent ⊢
    rw [letInFreely_of_not_mem _ hmem, run_answerBy, run_bind]
    have hresolve := (congruence_attains l (n + 1)).resolve (substituteBy_attains (hask hmem))
      pair.source pair.target
    set t : Search := { s with
      guard := s.guard.count.takeIn pair, stack := s.stack.push pair, lowest := none } with ht
    have hin : InProgress l (n + 1) t :=
      ⟨hs.limits_eq, congrArg (· + 1) hs.depth, (Array.size_push _).trans (congrArg (· + 1) hs.stack),
        Nat.min_le_right _ _⟩
    have hspent' : ¬ Spent l (resolve (substituteBy ask) pair.source pair.target t).2.guard := by
      have hsteps := (hresolve.spends t hin.steps_le).1
      exact fun h => hspent (((guarding_spends l).settle _ _ _ _ _ hsteps).2 h)
    rw [(hresolve.same t hin hspent').1]

/-- What is let in under limits that are not spent in the end is let in within the limits. -/
theorem within_of_not_spent {answer : SearchM (Option Handle)} (hlimits : s.guard.limits = l)
    (h : ¬ Spent l (letIn pair answer s).2.guard) :
    s.guard.count.steps ≤ l.steps ∧ s.guard.depth < l.depth := by
  subst hlimits
  by_contra hout
  obtain ⟨a, ha, he⟩ := Guard.enter_of_beyond pair (g := s.guard) (by omega)
  obtain ⟨journal, hrun⟩ := letIn_of_refused answer he ha
  rw [hrun] at h
  exact h (Or.inl rfl)

/-- What is let in without regard to limits that are not spent in the end has counted a step within
them. -/
theorem count_le_of_not_spent {answer : SearchM (Option Handle)} (hanswer : Guards (Spends l) answer)
    (h : ¬ Spent l (letInFreely pair answer s).2.guard) : s.guard.count.steps ≤ l.steps := by
  by_contra hlt
  have hcounted : Spent l s.guard.count := Or.inr (Nat.lt_of_not_le hlt)
  refine h ?_
  by_cases hmem : s.guard.visiting.contains pair
  · rw [letInFreely_of_mem _ hmem, guard_assume]
    exact hcounted
  · rw [letInFreely_of_not_mem _ hmem]
    exact (hanswer { s with guard := s.guard.count.takeIn pair } (Nat.min_le_right _ _)).2 hcounted

/-- As long as at most `d` pairs are in progress, a pair that may be asked for is asked for within the limit
on the depth, and at most `d` are in progress once it is let in. -/
def Fits (l : Limits) (d : Nat) (allowed : Search → Pair → Bool) : Prop :=
  ∀ n s pair, InProgress l n s → n ≤ d → allowed s pair →
    n < l.depth ∧ (¬ s.guard.visiting.contains pair → n < d)

theorem fits_fewer (l : Limits) : Fits l l.depth (fewer l.depth) := by
  intro n s pair hs _ hallowed
  have hlt : n < l.depth := hs.stack ▸ of_decide_eq_true hallowed
  exact ⟨hlt, fun _ => hlt⟩

theorem fits_fewerIfNew (h : d < l.depth) : Fits l d (fewerIfNew d) := by
  intro n s pair hs hn hallowed
  refine ⟨by omega, fun hmem => ?_⟩
  rcases Bool.or_eq_true _ _ ▸ hallowed with hmem' | hlt
  · exact absurd hmem' hmem
  · exact hs.stack ▸ of_decide_eq_true hlt

/-- A search under limits does what the search without does, if there every pair is asked for within the
limit on the depth. -/
theorem freely_attains {allowed : Search → Pair → Bool} (hfits : Fits l d allowed) (levels : Nat)
    {levels' : Nat} (hn : n ≤ d) (hlevels : l.depth = levels' + n) (pair : Pair) :
    Attains l n (unfolded (freely allowed fun _ => raised) (fun _ => raised) levels pair)
      (evaluate levels' pair) := by
  have hraised : ∀ s, Spent l (raised s).2.guard := fun s => Or.inl rfl
  have hraise : Guards (Spends l) raised := fun s hg => ⟨hg, fun _ => hraised s⟩
  have hspends := (guarding_spends l).freely spends_count spends_takeIn allowed (fun _ => hraise)
    fun _ => hraise
  induction levels generalizing n levels' pair with
  | zero => exact ⟨hraise, fun s _ hspent => absurd (hraised s) hspent⟩
  | succ levels ih =>
    refine ⟨hspends _ pair, fun s hs hspent => ?_⟩
    rw [unfolded, run_freely] at hspent ⊢
    split_ifs at hspent ⊢ with hok
    · obtain ⟨hlt, hnew⟩ := hfits n s pair hs hn hok
      obtain ⟨levels', rfl⟩ : ∃ k, levels' = k + 1 := ⟨levels' - 1, by omega⟩
      have hsteps := count_le_of_not_spent ((guarding_spends l).answerBy (hspends levels) pair) hspent
      have hask : ¬ s.guard.visiting.contains pair → ∀ pair, Attains l (n + 1)
          (unfolded (freely allowed fun _ => raised) (fun _ => raised) levels pair)
          (evaluate levels' pair) := fun hmem pair => ih (hnew hmem) (by omega) pair
      have hsame := letInFreely_attains hs hask hspent
      have heval : evaluate (levels' + 1) pair s =
          letInFreely pair (answerBy (substituteBy (evaluate levels')) pair) s :=
        letIn_eq_letInFreely _ (hs.limits_eq ▸ hsteps) (by rw [hs.limits_eq, hs.depth]; exact hlt)
      rw [← hsame, ← heval]
      exact ⟨rfl, evaluate_frames _ pair s⟩
    · exact absurd (hraised s) hspent

/-- A search without limits does what the search under limits does, if that is refused nothing; every
pair is asked for while fewer are in progress than the limit on the depth allows. -/
theorem evaluate_attains (alarm beyond : Pair → SearchM (Option Handle)) {levels : Nat}
    (hlevels : l.depth = levels + n) (pair : Pair) :
    Attains l n (evaluate levels pair) (unfolded (freely (fewer l.depth) alarm) beyond levels pair) := by
  induction levels generalizing n pair with
  | zero =>
    refine ⟨evaluate_spends 0 pair, fun s hs hspent => ?_⟩
    have hdepth := (within_of_not_spent hs.limits_eq hspent).2
    rw [hs.depth] at hdepth
    omega
  | succ levels ih =>
    refine ⟨evaluate_spends _ pair, fun s hs hspent => ⟨?_, evaluate_frames _ pair s⟩⟩
    obtain ⟨hsteps, hdepth⟩ := within_of_not_spent hs.limits_eq hspent
    have heval : evaluate (levels + 1) pair s =
        letInFreely pair (answerBy (substituteBy (evaluate levels)) pair) s :=
      letIn_eq_letInFreely _ (hs.limits_eq ▸ hsteps) (hs.limits_eq ▸ hdepth)
    have hfewer : fewer l.depth s pair := by
      rw [hs.depth, ← hs.stack] at hdepth
      exact decide_eq_true hdepth
    rw [heval] at hspent ⊢
    rw [unfolded, run_freely, if_pos hfewer]
    exact letInFreely_attains hs (fun _ pair => ih (by omega) pair) hspent

theorem checkBy_attains {ask ask' : Pair → SearchM (Option Handle)}
    (h : ∀ pair, Attains l n (ask pair) (ask' pair)) (source target : Handle) :
    Attains l n (checkBy ask (some source) (some target))
      (checkBy ask' (some source) (some target)) := by
  have hP := congruence_attains l n
  refine Congruence.branch (P := Attains l n) (hP.pure _)
    (.bind (.of_framed (fun _ => rfl) (lookup_frames _)) fun found => ?_)
  cases found with
  | some verdict => exact hP.pure _
  | none =>
    exact .bind (h _) fun _ => .bind (.of_framed (fun _ => rfl) Framed.refl) fun _ => hP.pure _

/-- The mark on an answer is that of the search. -/
theorem depthExceeded_checkBy (ask : Pair → SearchM (Option Handle)) (source target : Handle)
    (h : s.guard.exceeded = false) :
    (checkBy ask (some source) (some target) s).1.depthExceeded =
      (checkBy ask (some source) (some target) s).2.guard.exceeded := by
  rw [checkBy]
  split_ifs
  · exact h.symm
  · rw [run_bind]
    cases (lookup ⟨source, target⟩ s).1 with
    | some verdict => exact h.symm
    | none => rfl

theorem check_start (source target : Handle) (solver : Solver) (l : Limits) :
    check (some source) (some target) (.start solver l) =
      checkBy (evaluate l.depth) (some source) (some target) (.start solver l) := by
  rw [check, checkWith, checkBy, checkBy]
  split_ifs
  · rfl
  · rw [run_bind, run_bind]
    cases (lookup ⟨source, target⟩ (.start solver l)).1 <;> rfl

/-- A query whose search without limits ends, and asks for no pair but within the limit on the depth, is
answered as it would be without limits. -/
theorem check_of_endsFreely {allowed : Search → Pair → Bool} {source target : Handle} {solver : Solver}
    {a : Answer} {steps : Nat} (hfits : Fits l d allowed)
    (h : EndsFreely allowed source target (.start solver l) a steps) (hsteps : steps ≤ l.steps) :
    (check (some source) (some target) (.start solver l)).1 = a ∧ a.depthExceeded = false := by
  obtain ⟨levels, hends⟩ := h
  obtain ⟨hquiet, -⟩ := hends (fun _ => pure none) fun _ => pure none
  have hunmarked : a.depthExceeded = false := by
    rw [← hquiet, depthExceeded_checkBy _ _ _ rfl, exceeded_freely]
    rfl
  obtain ⟨hanswer, hcount⟩ := hends (fun _ => raised) fun _ => raised
  have hattains := checkBy_attains (fun pair => freely_attains hfits levels (Nat.zero_le d)
    (Nat.add_zero l.depth).symm pair) source target
  obtain ⟨hsame, -⟩ := hattains.same (.start solver l) ⟨rfl, rfl, rfl, Nat.zero_le _⟩ (by
    rintro (hmark | hlt)
    · rw [← depthExceeded_checkBy _ _ _ rfl, hanswer, hunmarked] at hmark
      cases hmark
    · omega)
  rw [check_start, hsame]
  exact ⟨hanswer, hunmarked⟩

/-- A query that is refused nothing asks for every pair within the limit on the depth. -/
theorem endsFreely_of_check {source target : Handle} {solver : Solver}
    (h : (check (some source) (some target) (.start solver l)).1.depthExceeded = false) :
    ∃ steps ≤ l.steps, EndsFreely (fewer l.depth) source target (.start solver l)
      (check (some source) (some target) (.start solver l)).1 steps := by
  have hmark : (check (some source) (some target) (.start solver l)).2.guard.exceeded = false :=
    (depthExceeded_checkBy _ source target rfl).symm.trans h
  have hsteps := steps_check_le solver hmark
  refine ⟨_, hsteps, l.depth, fun alarm beyond => ?_⟩
  have hattains := checkBy_attains (fun pair => evaluate_attains alarm beyond
    (Nat.add_zero l.depth).symm pair) source target
  have hspent : ¬ Spent l (check (some source) (some target) (.start solver l)).2.guard := by
    rintro (hmark' | hlt)
    · rw [hmark] at hmark'
      cases hmark'
    · exact absurd hlt (Nat.not_lt.2 hsteps)
  rw [check_start] at hspent ⊢
  obtain ⟨hsame, -⟩ := hattains.same (.start solver l) ⟨rfl, rfl, rfl, Nat.zero_le _⟩ hspent
  intro r
  rw [show r = _ from hsame]
  exact ⟨rfl, rfl⟩

end Search

namespace Solver

/-- A solver when the search for a query begins. -/
def asked (s : Solver) (source target : Option Handle) : Solver :=
  let (number, journal) := s.chronicle.journal.beginQuery
  { s with chronicle := ⟨s.chronicle.univ, journal.note (.queryStarted number source target)⟩ }

/-- What the limit on the depth refuses. A query is refused nothing exactly if the search for it ends
without limits, within the allowed steps, and every pair, new or in progress, is asked for while fewer are
in progress than the limit allows; the answer is then the one without limits. So a limit that is greater
than the number of pairs that are ever in progress at once, whatever cycles there are, refuses nothing.
A pair in progress is a cycle only below the limit. -/
theorem depth_limit_exact (s : Solver) (source target : Handle) (limits : Limits) :
    let start := Search.start (s.asked (some source) (some target)) limits
    let answer := (query limits (some source) (some target) s).1
    (answer.depthExceeded = false ↔ ∃ a, ∃ steps ≤ limits.steps,
      Search.EndsFreely (Search.fewer limits.depth) source target start a steps) ∧
    (∀ a steps, Search.EndsFreely (Search.fewer limits.depth) source target start a steps →
      steps ≤ limits.steps → answer = a) ∧
    (∀ d a steps, Search.EndsFreely (Search.fewerIfNew d) source target start a steps →
      d < limits.depth → steps ≤ limits.steps → answer = a ∧ answer.depthExceeded = false) ∧
    ∀ (g : Guard Pair) (pair : Pair), g.visiting.contains pair → g.count.steps ≤ g.limits.steps →
      (g.enter pair).1 = if g.depth < g.limits.depth then .cycle else .depthExceeded := by
  intro start answer
  refine ⟨⟨fun h => ?_, ?_⟩, fun a steps h hsteps => ?_, fun d a steps h hd hsteps => ?_, ?_⟩
  · obtain ⟨steps, hsteps, hends⟩ := Search.endsFreely_of_check h
    exact ⟨answer, steps, hsteps, hends⟩
  · rintro ⟨a, steps, hsteps, hends⟩
    obtain ⟨hanswer, hunmarked⟩ := Search.check_of_endsFreely (Search.fits_fewer limits) hends hsteps
    exact (congrArg Answer.depthExceeded hanswer).trans hunmarked
  · exact (Search.check_of_endsFreely (Search.fits_fewer limits) h hsteps).1
  · obtain ⟨hanswer, hunmarked⟩ := Search.check_of_endsFreely (Search.fits_fewerIfNew hd) h hsteps
    exact ⟨hanswer, (congrArg Answer.depthExceeded hanswer).trans hunmarked⟩
  · intro g pair hmem hsteps
    rw [Guard.enter_of_steps pair hsteps, if_pos hmem]
    split_ifs with hdepth hdepth' hdepth'
    · exact absurd hdepth' (Nat.not_lt.2 hdepth)
    · rfl
    · rfl
    · exact absurd (Nat.lt_of_not_le hdepth) hdepth'

/-- In the universe of an interface `D<T>` that bounds `T` by `D<T>`, and a class `X` that implements
`D<X>`, the question whether `X` is a `D<>` raises itself, and no other pair is ever in progress. -/
theorem endsFreely_comparable (limits : Limits) :
    Search.EndsFreely (Search.fewerIfNew 1) ⟨3⟩ ⟨2⟩
      (.start (asked ⟨comparable, {}⟩ (some ⟨3⟩) (some ⟨2⟩)) limits) ⟨some ⟨4⟩, false, false⟩ 2 := by
  refine ⟨2, fun alarm beyond => ⟨?_, ?_⟩⟩ <;> cbv

/-- So a limit of two refuses nothing. -/
theorem depth_limit_exact_comparable :
    (query ⟨2, 2⟩ (some ⟨3⟩) (some ⟨2⟩) ⟨comparable, {}⟩).1 = ⟨some ⟨4⟩, false, false⟩ ∧
      Search.EndsFreely (Search.fewerIfNew 1) ⟨3⟩ ⟨2⟩
        (.start (asked ⟨comparable, {}⟩ (some ⟨3⟩) (some ⟨2⟩)) ⟨2, 2⟩) ⟨some ⟨4⟩, false, false⟩ 2 ∧
      ∃ a, ∃ steps ≤ 2, Search.EndsFreely (Search.fewer 2) ⟨3⟩ ⟨2⟩
        (.start (asked ⟨comparable, {}⟩ (some ⟨3⟩) (some ⟨2⟩)) ⟨2, 2⟩) a steps := by
  obtain ⟨hiff, -, hnew, -⟩ := depth_limit_exact ⟨comparable, {}⟩ ⟨3⟩ ⟨2⟩ ⟨2, 2⟩
  obtain ⟨hanswer, hunmarked⟩ := hnew 1 _ 2 (endsFreely_comparable _) (by decide) (by decide)
  exact ⟨hanswer, endsFreely_comparable _, hiff.1 hunmarked⟩

/-- A limit of one refuses the pair that is in progress, although no more than one pair ever is. -/
theorem not_forall_fewerIfNew_answered :
    ¬ ∀ (c : Chronicle) (s : Solver), c.univ.Built → s.Served c → ∀ source target,
      s.univ.contains source → s.univ.contains target → ∀ (limits : Limits) a steps,
        1 ≤ limits.depth → steps ≤ limits.steps →
        Search.EndsFreely (Search.fewerIfNew limits.depth) source target
          (.start (s.asked (some source) (some target)) limits) a steps →
          (query limits (some source) (some target) s).1 = a ∧ a.depthExceeded = false := by
  intro h
  have hrefused : (query ⟨1, 2⟩ (some ⟨3⟩) (some ⟨2⟩) ⟨comparable, {}⟩).1 = ⟨none, false, true⟩ := by
    cbv
  obtain ⟨hanswer, -⟩ := h comparable ⟨comparable, {}⟩ built_comparable .new ⟨3⟩ ⟨2⟩ (by cbv) (by cbv)
    ⟨1, 2⟩ _ 2 (by decide) (by decide) (endsFreely_comparable ⟨1, 2⟩)
  rw [hrefused] at hanswer
  cases hanswer

end Solver

end Subtyping
