import Subtyping.Proofs.SearchRules
import Subtyping.Substitution.Evaluate

/-!
# What a search leaves alone

Any part of a search that is complete in itself, from answering a question down to meeting one
bound, leaves the limits, the depth, the pairs in progress and their stack as they were
(`Search.Framed`). Verdicts on record stay, refusals are not forgotten, and the answer in progress
comes to lean on pairs further out, never further in. Every verdict that the journal says was recorded
on the way is on record at the end. This holds from every state (`Search.evaluate_frames`).
-/

namespace Subtyping.Search

open UniverseM

variable {α β : Type} {s s' s'' : Search}

/-- What stays the same between two states of a search, and which way the rest goes. -/
structure Framed (s s' : Search) : Prop where
  limits : s'.guard.limits = s.guard.limits
  depth : s'.guard.depth = s.guard.depth
  visiting : ∀ p, p ∈ s'.guard.visiting ↔ p ∈ s.guard.visiting
  stack : s'.stack = s.stack
  entries : ∀ {p : Pair} {v : Verdict},
    s.verdicts.entries[p]? = some v → s'.verdicts.entries[p]? = some v
  refusals : s.refusals ≤ s'.refusals
  exceeded : s.guard.exceeded → s'.guard.exceeded
  lowest : ∀ n ∈ s.lowest, ∃ m ∈ s'.lowest, m ≤ n
  noted : ∀ {p : Pair} {r : Option Handle}, Event.verdict p r ∈ s'.chronicle.journal.events →
    Event.verdict p r ∈ s.chronicle.journal.events ∨
      s'.verdicts.entries[p]? = some (.ofSubstitution r)

namespace Framed

theorem refl (s : Search) : s.Framed s :=
  ⟨rfl, rfl, fun _ => Iff.rfl, rfl, id, Nat.le_refl _, id, fun n hn => ⟨n, hn, Nat.le_refl n⟩,
    Or.inl⟩

theorem trans (h : s.Framed s') (h' : s'.Framed s'') : s.Framed s'' where
  limits := h'.limits.trans h.limits
  depth := h'.depth.trans h.depth
  visiting p := (h'.visiting p).trans (h.visiting p)
  stack := h'.stack.trans h.stack
  entries hp := h'.entries (h.entries hp)
  refusals := Nat.le_trans h.refusals h'.refusals
  exceeded he := h'.exceeded (h.exceeded he)
  lowest n hn := by
    obtain ⟨m, hm, hmn⟩ := h.lowest n hn
    obtain ⟨k, hk, hkm⟩ := h'.lowest m hm
    exact ⟨k, hk, Nat.le_trans hkm hmn⟩
  noted he := (h'.noted he).elim (fun he => (h.noted he).imp_right h'.entries) Or.inr

end Framed

/-- Work frames if it does so from every state. -/
def Frames (x : SearchM α) : Prop :=
  ∀ s : Search, s.Framed (x s).2

namespace Frames

theorem pure (a : α) : Frames (pure a) :=
  Framed.refl

theorem bind {x : SearchM α} {f : α → SearchM β} (hx : Frames x) (hf : ∀ a, Frames (f a)) :
    Frames (x >>= f) :=
  fun s => (hx s).trans (hf _ _)

/-- The universe is not part of the frame. -/
theorem lift {x : UniverseM α} (hx : Quiet x) : Frames (liftM x : SearchM α) := fun s =>
  ⟨rfl, rfl, fun _ => Iff.rfl, rfl, id, Nat.le_refl _, id, fun n hn => ⟨n, hn, Nat.le_refl n⟩,
    fun he => Or.inl (hx s.chronicle _ _ he)⟩

theorem ite {c : Prop} [Decidable c] {x y : SearchM α} (hx : Frames x) (hy : Frames y) :
    Frames (if c then x else y) := by
  split
  · exact hx
  · exact hy

end Frames

/-! ## Steps on the state -/

theorem get_frames : Frames (get : SearchM Search) :=
  Framed.refl

theorem lookup_frames (pair : Pair) : Frames (lookup pair) := fun s =>
  ⟨rfl, rfl, fun _ => Iff.rfl, rfl, fun h => (s.verdicts.entries_lookup pair).symm ▸ h, Nat.le_refl _,
    id, fun n hn => ⟨n, hn, Nat.le_refl n⟩, Or.inl⟩

theorem entries_record {v : Verdicts} {pair p : Pair} {verdict w : Verdict}
    (h : v.entries[p]? = some w) : (v.record pair verdict).2.entries[p]? = some w := by
  unfold Verdicts.record
  cases hp : v.entries[pair]? with
  | some standing => exact h
  | none =>
    have hne : ¬ (pair == p) = true := fun he => by
      rw [eq_of_beq he, h] at hp
      cases hp
    rw [Std.HashMap.getElem?_insert, if_neg hne, h]

theorem entries_record_of_ne {v : Verdicts} {pair p : Pair} {verdict : Verdict} (hne : p ≠ pair) :
    (v.record pair verdict).2.entries[p]? = v.entries[p]? := by
  unfold Verdicts.record
  cases v.entries[pair]? with
  | some standing => rfl
  | none =>
    have hbeq : ¬ (pair == p) = true := fun he => hne (eq_of_beq he).symm
    rw [Std.HashMap.getElem?_insert, if_neg hbeq]

/-- What is on record once a verdict was recorded was there before, or it is that verdict. -/
theorem entries_record_cases {v : Verdicts} {pair p : Pair} {verdict w : Verdict}
    (h : (v.record pair verdict).2.entries[p]? = some w) :
    v.entries[p]? = some w ∨ (p = pair ∧ w = verdict) := by
  unfold Verdicts.record at h
  split at h
  · exact Or.inl h
  · rw [Std.HashMap.getElem?_insert] at h
    split_ifs at h with he
    · cases h
      exact Or.inr ⟨(eq_of_beq he).symm, rfl⟩
    · exact Or.inl h

theorem run_recordAnswer (pair : Pair) (computed : Option Handle) (s : Search) :
    (recordAnswer pair computed : SearchM (Option Handle)) s =
      let r := s.verdicts.record pair (.ofSubstitution computed)
      (r.1.substitution?, { s with
        verdicts := r.2
        chronicle := { s.chronicle with
          journal := s.chronicle.journal.note (.verdict pair r.1.substitution?) } }) :=
  rfl

theorem record_frames (pair : Pair) (verdict : Verdict) : Frames (record pair verdict) := fun _ =>
  ⟨rfl, rfl, fun _ => Iff.rfl, rfl, entries_record, Nat.le_refl _, id,
    fun n hn => ⟨n, hn, Nat.le_refl n⟩, Or.inl⟩

/-- A verdict is recorded and noted. -/
theorem recordAnswer_frames (pair : Pair) (computed : Option Handle) :
    Frames (recordAnswer pair computed) := by
  refine fun s => ⟨rfl, rfl, fun _ => Iff.rfl, rfl, entries_record, Nat.le_refl _, id,
    fun n hn => ⟨n, hn, Nat.le_refl n⟩, fun he => ?_⟩
  rcases Array.mem_push.1 he with he | he
  · exact Or.inl he
  · cases he
    rw [Verdict.ofSubstitution_substitution?]
    exact Or.inr (s.verdicts.getElem?_entries_record pair (.ofSubstitution computed))

theorem refuse_frames : Frames refuse := fun s =>
  ⟨rfl, rfl, fun _ => Iff.rfl, rfl, id, Nat.le_succ s.refusals, id,
    fun n hn => ⟨n, hn, Nat.le_refl n⟩, Or.inl⟩

theorem outermost_lowers (around other : Option Nat) :
    ∀ n ∈ around, ∃ m ∈ outermost around other, m ≤ n := by
  intro n hn
  obtain rfl : around = some n := hn
  cases other with
  | none => exact ⟨n, rfl, Nat.le_refl n⟩
  | some k => exact ⟨min n k, rfl, Nat.min_le_left n k⟩

theorem exists_mem_outermost (around : Option Nat) (place : Nat) :
    ∃ m ∈ outermost around (some place), m ≤ place := by
  cases around with
  | none => exact ⟨place, rfl, Nat.le_refl place⟩
  | some k => exact ⟨min k place, rfl, Nat.min_le_right k place⟩

theorem leanOn_frames (place : Nat) : Frames (leanOn place) := fun s =>
  ⟨rfl, rfl, fun _ => Iff.rfl, rfl, id, Nat.le_refl _, id, outermost_lowers s.lowest (some place),
    Or.inl⟩

theorem congruence_frames : Congruence SearchM SearchM fun x _ => Frames x where
  pure := .pure
  bind := .bind
  lift hx := .lift hx.quiet
  refuse := refuse_frames

/-- Answers from the declarations leave alone what the nested questions do. -/
theorem resolve_frames {nested : Nested SearchM} (h : ∀ source target, Frames (nested source target))
    (source target : Handle) : Frames (resolve nested source target) :=
  congruence_frames.resolve_of_forall h source target

/-! ## Questions -/

theorem substituteBy_frames {evaluate : Pair → SearchM (Option Handle)}
    (he : ∀ pair, Frames (evaluate pair)) (source target : Handle) :
    Frames (substituteBy evaluate source target) := by
  refine .ite (.pure _) (.bind (lookup_frames _) fun found => ?_)
  cases found with
  | none => exact he _
  | some verdict => exact .bind (.lift (.note nofun)) fun _ => .pure _

/-- What becomes of the guard when a pair asks to be entered. -/
theorem enter_cases (g : Guard Pair) (pair : Pair) :
    (∃ admission n, admission.isExceeded ∧
      g.enter pair = (admission, { g with steps := n, exceeded := true })) ∨
    (pair ∈ g.visiting ∧ ∃ n, g.enter pair = (.cycle, { g with steps := n })) ∨
    (pair ∉ g.visiting ∧ g.depth < g.limits.depth ∧ ∃ n, g.enter pair = (.entered,
      { g with steps := n, visiting := g.visiting.insert pair, depth := g.depth + 1 })) := by
  unfold Guard.enter
  dsimp only
  split_ifs with hsteps hdepth hmem
  · exact Or.inl ⟨.stepsExceeded, _, rfl, rfl⟩
  · exact Or.inl ⟨.depthExceeded, _, rfl, rfl⟩
  · exact Or.inr (Or.inl ⟨Std.HashSet.mem_iff_contains.2 hmem, _, rfl⟩)
  · refine Or.inr (Or.inr ⟨fun h => hmem (Std.HashSet.mem_iff_contains.1 h), ?_, _, rfl⟩)
    omega

theorem run_placeOf?_bind (k : Option Nat → SearchM α) (pair : Pair) (s : Search) :
    ((liftM (placeOf? pair) : SearchM (Option Nat)) >>= k) s = k (s.stack.idxOf? pair) s :=
  rfl

theorem run_exceeded_enter (k : Bool → Admission → SearchM α) (pair : Pair) (s : Search) :
    ((liftM exceeded : SearchM Bool) >>= fun before =>
      (liftM (enter pair) : SearchM Admission) >>= k before) s =
      k s.guard.exceeded (s.guard.enter pair).1 { s with guard := (s.guard.enter pair).2 } :=
  rfl

section LetIn

variable (hooks : Hooks SearchM) {pair : Pair} {admission : Admission} {g : Guard Pair}
  (answer : SearchM (Option Handle))

/-- A pair that a limit refuses has no substitution. -/
theorem letInWith_of_refused (h : s.guard.enter pair = (admission, g)) (ha : admission.isExceeded) :
    letInWith hooks pair answer s = (none, (hooks.refused s.guard.exceeded pair admission
      { s with guard := g, refusals := s.refusals + 1 }).2) := by
  rw [letInWith, run_exceeded_enter, h]
  cases admission with
  | entered => cases ha
  | cycle => cases ha
  | depthExceeded | stepsExceeded => rfl

/-- A pair that is in progress is assumed to hold. -/
theorem letInWith_of_cycle (h : s.guard.enter pair = (.cycle, g)) :
    letInWith hooks pair answer s = assumeWith hooks pair { s with guard := g } := by
  rw [letInWith, run_exceeded_enter, h]

/-- Any other pair is answered as given. -/
theorem letInWith_of_entered (h : s.guard.enter pair = (.entered, g)) :
    letInWith hooks pair answer s = answer { s with guard := g } := by
  rw [letInWith, run_exceeded_enter, h]

theorem run_assumeWith (hooks : Hooks SearchM) (pair : Pair) (s : Search) :
    assumeWith hooks pair s = (do
      leanOn (placeWith hooks pair s).1
      note (.cycleAssumed pair (placeWith hooks pair s).1)
      return some pair.source : SearchM (Option Handle)) (placeWith hooks pair s).2 :=
  rfl

theorem placeWith_of_place {place : Nat} (h : s.stack.idxOf? pair = some place) :
    placeWith hooks pair s = (place, s) := by
  rw [placeWith, run_placeOf?_bind, h]
  rfl

/-- The place of a pair that is not on the stack is taken to be the outermost one. -/
theorem run_place (pair : Pair) (s : Search) :
    (placeWith .plain pair : SearchM Nat) s = ((s.stack.idxOf? pair).getD 0, s) := by
  rw [placeWith, run_placeOf?_bind]
  cases s.stack.idxOf? pair <;> rfl

theorem guard_assume (pair : Pair) (s : Search) : (assume pair s).2.guard = s.guard := by
  rw [assume, run_assumeWith, run_place]
  rfl

/-- Noting a refusal, if at all, changes the journal only. -/
theorem run_refused (before : Bool) (pair : Pair) (admission : Admission) (s : Search) :
    ∃ journal, (Hooks.plain : Hooks SearchM).refused before pair admission s =
      ((), { s with chronicle := { s.chronicle with journal } }) := by
  cases before with
  | true => exact ⟨s.chronicle.journal, rfl⟩
  | false => exact ⟨s.chronicle.journal.note _, rfl⟩

theorem letIn_of_refused (h : s.guard.enter pair = (admission, g)) (ha : admission.isExceeded) :
    ∃ journal, letIn pair answer s = (none, { s with
      guard := g, refusals := s.refusals + 1,
      chronicle := { s.chronicle with journal } }) := by
  obtain ⟨journal, hrun⟩ := run_refused s.guard.exceeded pair admission
    { s with guard := g, refusals := s.refusals + 1 }
  rw [letIn, letInWith_of_refused .plain answer h ha, hrun]
  exact ⟨journal, rfl⟩

theorem letIn_of_cycle (h : s.guard.enter pair = (.cycle, g)) :
    ∃ journal, letIn pair answer s = (some pair.source, { s with
      guard := g, lowest := outermost s.lowest (some ((s.stack.idxOf? pair).getD 0)),
      chronicle := { s.chronicle with journal } }) := by
  rw [letIn, letInWith_of_cycle .plain answer h, run_assumeWith, run_place]
  exact ⟨_, rfl⟩

theorem letIn_of_entered (h : s.guard.enter pair = (.entered, g)) :
    letIn pair answer s = answer { s with guard := g } :=
  letInWith_of_entered .plain answer h

end LetIn

theorem evaluate_eq_letIn (levels : Nat) (pair : Pair) :
    ∃ answer, evaluate levels pair = letIn pair answer := by
  cases levels with
  | zero => exact ⟨_, rfl⟩
  | succ levels => exact ⟨_, rfl⟩

theorem evaluate_of_refused (levels : Nat) {pair : Pair} {admission : Admission} {g : Guard Pair}
    (h : s.guard.enter pair = (admission, g)) (ha : admission.isExceeded) :
    ∃ journal, evaluate levels pair s = (none, { s with
      guard := g, refusals := s.refusals + 1,
      chronicle := { s.chronicle with journal } }) := by
  obtain ⟨answer, heval⟩ := evaluate_eq_letIn levels pair
  rw [heval]
  exact letIn_of_refused answer h ha

theorem evaluate_of_cycle (levels : Nat) {pair : Pair} {g : Guard Pair}
    (h : s.guard.enter pair = (.cycle, g)) :
    ∃ journal, evaluate levels pair s = (some pair.source, { s with
      guard := g, lowest := outermost s.lowest (some ((s.stack.idxOf? pair).getD 0)),
      chronicle := { s.chronicle with journal } }) := by
  obtain ⟨answer, heval⟩ := evaluate_eq_letIn levels pair
  rw [heval]
  exact letIn_of_cycle answer h

/-- A question that is let in is answered from the declarations. -/
theorem evaluate_of_entered (levels : Nat) {pair : Pair} {g : Guard Pair}
    (h : s.guard.enter pair = (.entered, g)) :
    evaluate (levels + 1) pair s =
      (resolve (substituteBy (evaluate levels)) pair.source pair.target >>=
        settle pair s.stack.size s.lowest s.refusals)
      { s with guard := g, stack := s.stack.push pair, lowest := none } := by
  exact letIn_of_entered _ h

/-- Without depth left, a question that is let in is given up at once. -/
theorem evaluate_zero_of_entered {pair : Pair} {g : Guard Pair}
    (h : s.guard.enter pair = (.entered, g)) :
    evaluate 0 pair s = (none, { s with guard := g.leave pair }) := by
  exact letIn_of_entered _ h

/-- Whether a pair at `place` leans on pairs further out. -/
def provisional (s : Search) (place : Nat) : Bool :=
  s.lowest.any (· < place)

/-- The state once a pair at `place` is off the stack; `around` is what the answer around it leaned
on before. -/
def popped (s : Search) (pair : Pair) (place : Nat) (around : Option Nat) : Search :=
  { s with
    stack := s.stack.pop
    guard := s.guard.leave pair
    lowest := if s.provisional place then outermost around s.lowest else around }

theorem run_settleWith (hooks : Hooks SearchM) (pair : Pair) (place before : Nat)
    (around : Option Nat) (computed : Option Handle) (s : Search) :
    settleWith hooks pair place around before computed s =
      (if (s.provisional place || s.refusals != before) = true then do
        note (.verdictWithheld pair (s.provisional place) computed.isSome)
        return computed
      else
        hooks.keep pair computed : SearchM (Option Handle)) (s.popped pair place around) :=
  rfl

theorem run_settle (pair : Pair) (place before : Nat) (around : Option Nat)
    (computed : Option Handle) (s : Search) :
    settle pair place around before computed s =
      (if (s.provisional place || s.refusals != before) = true then do
        note (.verdictWithheld pair (s.provisional place) computed.isSome)
        return computed
      else
        recordAnswer pair computed : SearchM (Option Handle)) (s.popped pair place around) :=
  run_settleWith .plain pair place before around computed s

/-- A verdict that leans on a pair further out, or comes after a refusal, is not recorded. -/
theorem settle_of_withheld {pair : Pair} {place before : Nat} {around : Option Nat}
    {computed : Option Handle} (h : s.provisional place ∨ s.refusals ≠ before) :
    ∃ journal, settle pair place around before computed s = (computed,
      { s.popped pair place around with chronicle := { s.chronicle with journal } }) := by
  rw [run_settle, if_pos (by rwa [Bool.or_eq_true, bne_iff_ne])]
  exact ⟨_, rfl⟩

/-- Any other verdict is recorded. -/
theorem settle_of_recorded {pair : Pair} {place : Nat} {around : Option Nat}
    {computed : Option Handle} (h : s.provisional place = false) :
    ∃ journal, settle pair place around s.refusals computed s =
      ((s.verdicts.record pair (.ofSubstitution computed)).1.substitution?,
        { s.popped pair place around with
          verdicts := (s.verdicts.record pair (.ofSubstitution computed)).2
          chronicle := { s.chronicle with journal } }) := by
  rw [run_settle, if_neg (by simp [h])]
  exact ⟨_, rfl⟩

/-! ## Questions leave the frame alone -/

theorem leave_of_mem {g : Guard Pair} {pair : Pair} (h : pair ∈ g.visiting) :
    g.leave pair = { g with visiting := g.visiting.erase pair, depth := g.depth - 1 } := by
  simp [Guard.leave, Guard.leave?, Std.HashSet.mem_iff_contains.1 h]

theorem exceeded_leave (g : Guard Pair) (pair : Pair) :
    (g.leave pair).exceeded = g.exceeded := by
  unfold Guard.leave Guard.leave?
  split_ifs <;> rfl

/-! ## What settling a pair does not touch -/

section Settle

variable (s : Search) (pair : Pair) (place before : Nat) (around : Option Nat)
  (computed : Option Handle)

theorem exceeded_settle :
    (settle pair place around before computed s).2.guard.exceeded = s.guard.exceeded := by
  rw [run_settle]
  split_ifs <;> exact exceeded_leave s.guard pair

theorem refusals_settle :
    (settle pair place around before computed s).2.refusals = s.refusals := by
  rw [run_settle]
  split_ifs <;> rfl

/-- Only the verdict on the pair itself can be new. -/
theorem entries_settle_of_ne {p : Pair} (hne : p ≠ pair) :
    (settle pair place around before computed s).2.verdicts.entries[p]? =
      s.verdicts.entries[p]? := by
  rw [run_settle]
  split_ifs
  · rfl
  · exact entries_record_of_ne hne

/-- A verdict that leans on nothing further out, and without a refusal, is on record as it is given. -/
theorem entries_settle_self (h : s.provisional place = false) :
    (settle pair place around s.refusals computed s).2.verdicts.entries[pair]? =
      some (.ofSubstitution (settle pair place around s.refusals computed s).1) := by
  obtain ⟨j, hj⟩ := @settle_of_recorded s pair place around computed h
  rw [hj, Verdict.ofSubstitution_substitution?]
  exact s.verdicts.getElem?_entries_record pair _

end Settle

theorem noteRefusal_frames (pair : Pair) (admission : Admission) :
    Frames (noteRefusal pair admission) :=
  .bind get_frames fun _ => .lift (.note (by nofun))

theorem refused_frames (before : Bool) (pair : Pair) (admission : Admission) :
    Frames ((Hooks.plain : Hooks SearchM).refused before pair admission) := by
  cases before with
  | true => exact .pure _
  | false => exact noteRefusal_frames pair admission

theorem evaluate_framed_of_refused {levels n : Nat} {pair : Pair} {admission : Admission}
    (h : s.guard.enter pair = (admission, { s.guard with steps := n, exceeded := true }))
    (ha : admission.isExceeded) : s.Framed (evaluate levels pair s).2 := by
  obtain ⟨answer, heval⟩ := evaluate_eq_letIn levels pair
  rw [heval, letIn, letInWith_of_refused .plain answer h ha]
  have hstep : s.Framed { s with
      guard := { s.guard with steps := n, exceeded := true }, refusals := s.refusals + 1 } :=
    ⟨rfl, rfl, fun _ => Iff.rfl, rfl, id, Nat.le_succ _, fun _ => rfl,
      fun n hn => ⟨n, hn, Nat.le_refl n⟩, Or.inl⟩
  exact hstep.trans (refused_frames _ pair admission _)

theorem evaluate_framed_of_cycle {levels n : Nat} {pair : Pair}
    (h : s.guard.enter pair = (.cycle, { s.guard with steps := n })) :
    s.Framed (evaluate levels pair s).2 := by
  obtain ⟨answer, heval⟩ := evaluate_eq_letIn levels pair
  rw [heval, letIn, letInWith_of_cycle .plain answer h, run_assumeWith, run_place]
  have hstep : s.Framed { s with guard := { s.guard with steps := n } } :=
    ⟨rfl, rfl, fun _ => Iff.rfl, rfl, id, Nat.le_refl _, id,
      fun n hn => ⟨n, hn, Nat.le_refl n⟩, Or.inl⟩
  refine hstep.trans ?_
  exact Frames.bind (leanOn_frames _) (fun _ => .bind (.lift (.note (by nofun))) fun _ => .pure _) _

/-- Entering a pair, working on it and leaving it leaves the frame alone. -/
theorem framed_popped {pair : Pair} {n : Nat} (hmem : pair ∉ s.guard.visiting)
    (h : Framed { s with
      guard := { s.guard with
        steps := n, visiting := s.guard.visiting.insert pair, depth := s.guard.depth + 1 }
      stack := s.stack.push pair
      lowest := none } s') : s.Framed (s'.popped pair s.stack.size s.lowest) := by
  have hpair : pair ∈ s'.guard.visiting := (h.visiting pair).2 (by simp)
  have hguard : (s'.popped pair s.stack.size s.lowest).guard = _ := leave_of_mem hpair
  refine ⟨?_, ?_, fun p => ?_, ?_, h.entries, h.refusals, ?_, ?_, h.noted⟩
  · rw [hguard]
    exact h.limits
  · rw [hguard]
    exact congrArg (· - 1) h.depth
  · rw [hguard, Std.HashSet.mem_erase, h.visiting p, Std.HashSet.mem_insert]
    constructor
    · rintro ⟨hne, he | hp⟩
      · rw [he] at hne
        cases hne
      · exact hp
    · intro hp
      refine ⟨beq_eq_false_iff_ne.2 ?_, Or.inr hp⟩
      rintro rfl
      exact hmem hp
  · show s'.stack.pop = s.stack
    rw [h.stack, Array.pop_push]
  · intro he
    rw [hguard]
    exact h.exceeded he
  · show ∀ n ∈ s.lowest, ∃ m ∈ (if s'.provisional s.stack.size then outermost s.lowest s'.lowest
      else s.lowest), m ≤ n
    split_ifs
    · exact outermost_lowers _ _
    · exact fun n hn => ⟨n, hn, Nat.le_refl n⟩

theorem settle_framed {pair : Pair} {place before : Nat} {around : Option Nat}
    {computed : Option Handle} :
    (s.popped pair place around).Framed (settle pair place around before computed s).2 := by
  rw [run_settle]
  exact Frames.ite (.bind (.lift (.note (by nofun))) fun _ => .pure _) (recordAnswer_frames _ _) _

/-- Answering a question leaves the frame alone, whatever the state. -/
theorem evaluate_frames (levels : Nat) (pair : Pair) : Frames (evaluate levels pair) := by
  induction levels generalizing pair with
  | zero =>
    intro s
    rcases enter_cases s.guard pair with ⟨_, n, ha, h⟩ | ⟨-, n, h⟩ | ⟨hmem, -, n, h⟩
    · exact evaluate_framed_of_refused h ha
    · exact evaluate_framed_of_cycle h
    · rw [evaluate_zero_of_entered h]
      simpa [popped, provisional] using framed_popped hmem (Framed.refl _)
  | succ levels ih =>
    intro s
    rcases enter_cases s.guard pair with ⟨_, n, ha, h⟩ | ⟨-, n, h⟩ | ⟨hmem, -, n, h⟩
    · exact evaluate_framed_of_refused h ha
    · exact evaluate_framed_of_cycle h
    · rw [evaluate_of_entered levels h]
      exact (framed_popped hmem (resolve_frames (substituteBy_frames ih) _ _ _)).trans settle_framed

end Subtyping.Search
