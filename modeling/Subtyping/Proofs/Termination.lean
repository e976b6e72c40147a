import Subtyping.Proofs.FailSafe
import Subtyping.Proofs.SearchGrounded

/-!
# Queries come to an end

A recursive definition comes to an end on an input if, unfolded often enough, it gives the same result
whatever is put in place of the rest of the recursion (`unfolded`): the rest is never asked for. The
walk up the interfaces of a type ends after as many generations as there are declarations
(`UniverseM.computeInterfacesBy_unfolded`), the walk down its arguments after as many levels as there
are types (`Universe.anyOwnerBy_unfolded`). A loop with a stack goes up the interfaces in the same way
(`UniverseM.collectsOn_declaredInterfaces`).

The search for a substitution may come to infinitely many pairs. It ends because of its limits: when a
pair is let in, fewer pairs are in progress than the allowed depth, and fewer were started than the
allowed steps, as long as the count of steps cannot stick at its cap (`Search.HasRoom`). So a watch on
the search, that raises an alarm when a pair is let in without room, never does
(`Search.evaluate_watched`), and a query ends within its limits, in every universe and whatever
verdicts are on record (`Search.check_within_limits`).
-/

namespace Subtyping

/-- A recursive definition unfolded `levels` times, with `beyond` in place of the rest of the
recursion. -/
def unfolded {α β : Type} (step : (α → β) → α → β) (beyond : α → β) : (levels : Nat) → α → β
  | 0 => beyond
  | levels + 1 => step (unfolded step beyond levels)

/-! ## Walks -/

namespace UniverseM

variable {u : Universe} {rank : DeclId → Nat}

/-- Adds an interface to those seen, and by `ask` all that it inherits. -/
def collectBy (ask : List Handle → Handle → UniverseM (List Handle)) (seen : List Handle)
    (interface : Handle) : UniverseM (List Handle) := do
  if seen.contains interface then
    return seen
  else
    let inherited ← declaredInterfaces interface
    inherited.foldlM ask (seen ++ [interface])

/-- All interfaces of a type, where `ask` adds each that is declared and all that it inherits. -/
def computeInterfacesBy (ask : List Handle → Handle → UniverseM (List Handle)) (ty : Handle) :
    UniverseM (List Handle) := do
  let chain ← baseChain ty
  chain.reverse.foldlM (fun seen ancestor => do
    let declared ← declaredInterfaces ancestor
    declared.foldlM ask seen) []

/-- From a universe, two pieces of work do the same and give known types. -/
def Agree (u : Universe) (x x' : UniverseM (List Handle)) : Prop :=
  (∀ j, x ⟨u, j⟩ = x' ⟨u, j⟩) ∧ Ensures u x' fun r v => ∃ ts, List.Forall₂ v.Reads r ts

theorem Agree.bind {α : Type} {x x' : UniverseM α} {Q : α → Universe → Prop}
    {k k' : α → UniverseM (List Handle)} (heq : ∀ j, x ⟨u, j⟩ = x' ⟨u, j⟩) (hx : Ensures u x' Q)
    (hk : ∀ a v, u.Grows v → Q a v → Agree v (k a) (k' a)) : Agree u (x >>= k) (x' >>= k') := by
  refine ⟨fun j => ?_, hx.bind fun a v hv hq => (hk a v hv hq).2⟩
  obtain ⟨hg, hq⟩ := hx j
  rw [run_bind, run_bind, heq j]
  exact (hk _ _ hg hq).1 (x' ⟨u, j⟩).2.journal

theorem Agree.foldlM {f f' : List Handle → Handle → UniverseM (List Handle)} {l acc : List Handle}
    {ts accs : List Ty} (hu : u.Consistent) (hl : List.Forall₂ u.Reads l ts)
    (hacc : List.Forall₂ u.Reads acc accs)
    (hf : ∀ {v acc accs ty t}, u.Grows v → List.Forall₂ v.Reads acc accs → v.Reads ty t → t ∈ ts →
      Agree v (f acc ty) (f' acc ty)) : Agree u (l.foldlM f acc) (l.foldlM f' acc) := by
  induction l generalizing u ts acc accs with
  | nil => exact ⟨fun _ => rfl, .pure hu ⟨accs, hacc⟩⟩
  | cons ty l ih =>
    obtain ⟨t, ts, ht, hrest, rfl⟩ := List.forall₂_cons_left_iff.1 hl
    obtain ⟨heq, hfirst⟩ := hf (.refl hu) hacc ht List.mem_cons_self
    rw [List.foldlM_cons, List.foldlM_cons]
    refine .bind heq hfirst fun r v hv hr => ?_
    obtain ⟨rs, hr⟩ := hr
    exact ih hv.after (hv.forall₂_reads hrest) hr fun hw ha hi hmem =>
      hf (hv.trans hw) ha hi (List.mem_cons_of_mem _ hmem)

/-- Above an interface, the walk ends after as many generations as its rank. -/
theorem unfolded_collectBy {S : Signature} (hr : S.Ranking rank)
    (beyond : List Handle → Handle → UniverseM (List Handle)) {generations levels : Nat}
    {seen : List Handle} {seens : List Ty} {interface : Handle} {t : Ty} {decl : DeclId}
    (hu : u.Consistent) (hS : u.signature = S) (hseen : List.Forall₂ u.Reads seen seens)
    (ht : u.Reads interface t) (hdecl : t.head? = some decl) (hgen : rank decl < generations)
    (hlevels : rank decl < levels) :
    Agree u (unfolded collectBy beyond levels seen interface)
      (collect generations seen interface) := by
  -- every interface that is inherited has a lower rank
  induction generations generalizing u levels seen seens interface t decl with
  | zero => omega
  | succ generations ih =>
    obtain ⟨levels, rfl⟩ : ∃ n, levels = n + 1 := ⟨levels - 1, by omega⟩
    rw [unfolded, collectBy, collect]
    split_ifs with hmem
    · exact ⟨fun _ => rfl, .pure hu ⟨seens, hseen⟩⟩
    · refine .bind (fun _ => rfl) (declaredInterfaces_ensures hu ht) fun inherited v hv hinherited => ?_
      have hacc := List.rel_append (hv.forall₂_reads hseen) (.cons (hv.reads ht) .nil)
      refine .foldlM hv.after hinherited hacc fun hw ha hi hmem => ?_
      rw [hS] at hmem
      obtain ⟨parent, hparent, hlt⟩ := hr.lt_of_mem_declaredBy hdecl hmem
      exact ih hw.after ((hv.trans hw).signature.trans hS) ha hi hparent (by omega) (by omega)

/-- The walk up the interfaces of a type ends after as many generations as there are declarations. -/
theorem computeInterfacesBy_unfolded (hu : u.Consistent) {ty : Handle} (hty : u.contains ty)
    (beyond : List Handle → Handle → UniverseM (List Handle)) {levels : Nat}
    (hlevels : u.catalog.size ≤ levels) (j : Journal) :
    computeInterfacesBy (unfolded collectBy beyond levels) ty ⟨u, j⟩ =
      computeInterfaces ty ⟨u, j⟩ := by
  have hr := hu.exists_ranking
  obtain ⟨hg, hchain⟩ := baseChain_ensures hu (Universe.reads_typeAt hty) j
  rw [computeInterfacesBy, computeInterfaces, run_bind, run_bind]
  refine (Agree.foldlM hg.after (List.rel_reverse hchain) .nil fun hv ha hanc _ => ?_).1 _
  refine .bind (fun _ => rfl) (declaredInterfaces_ensures hv.after hanc)
    fun declared w hw hdeclared => ?_
  refine .foldlM hw.after hdeclared (hw.forall₂_reads ha) fun hx ha' hi hmem => ?_
  rw [(hg.trans hv).signature] at hmem
  obtain ⟨parent, hparent, hlt⟩ := hr.lt_size_of_mem_declaredBy hmem
  have hlt' : u.rank parent < u.catalog.size := hlt
  have hgrows := ((hg.trans hv).trans hw).trans hx
  exact unfolded_collectBy hr beyond hx.after hgrows.signature ha' hi hparent
    (hlt'.trans_eq (congrArg Catalog.size hg.catalog.symm)) (by omega)

/-- A loop over a stack of interfaces ends with `result`. It takes an interface from the stack until none
is left, adds each one that is new to those seen, and puts the interfaces that it declares on the
stack. -/
inductive CollectsOn :
    (seen stack : List Handle) → Chronicle → (result : List Handle × Chronicle) → Prop where
  | empty {seen : List Handle} {c : Chronicle} : CollectsOn seen [] c (seen, c)
  | skip {seen stack : List Handle} {interface : Handle} {c : Chronicle}
    {result : List Handle × Chronicle} (hseen : interface ∈ seen) (h : CollectsOn seen stack c result) :
    CollectsOn seen (interface :: stack) c result
  | add {seen stack : List Handle} {interface : Handle} {c : Chronicle}
    {result : List Handle × Chronicle} (hnew : interface ∉ seen)
    (h : CollectsOn (seen ++ [interface]) ((declaredInterfaces interface c).1 ++ stack)
      (declaredInterfaces interface c).2 result) : CollectsOn seen (interface :: stack) c result

/-- What the first part of a stack adds is what collecting it adds, if that is so for each interface in
it. -/
theorem CollectsOn.append_foldlM {generations : Nat} {stack rest seen : List Handle} {ts seens : List Ty}
    {result : List Handle × Chronicle} (hu : u.Consistent) (hstack : List.Forall₂ u.Reads stack ts)
    (hseen : List.Forall₂ u.Reads seen seens)
    (hone : ∀ {v seen seens interface t rest j}, u.Grows v → List.Forall₂ v.Reads seen seens →
      v.Reads interface t → t ∈ ts →
      CollectsOn (collect generations seen interface ⟨v, j⟩).1 rest
        (collect generations seen interface ⟨v, j⟩).2 result →
      CollectsOn seen (interface :: rest) ⟨v, j⟩ result) (j : Journal)
    (h : CollectsOn (stack.foldlM (collect generations) seen ⟨u, j⟩).1 rest
      (stack.foldlM (collect generations) seen ⟨u, j⟩).2 result) :
    CollectsOn seen (stack ++ rest) ⟨u, j⟩ result := by
  induction stack generalizing u ts seen seens j with
  | nil => exact h
  | cons interface stack ih =>
    obtain ⟨t, ts, ht, htail, rfl⟩ := List.forall₂_cons_left_iff.1 hstack
    have hfirst : Ensures u (collect generations seen interface) _ := collect_ensures hu hseen ht
    obtain ⟨hg, hr⟩ := hfirst j
    rw [List.foldlM_cons, run_bind] at h
    refine hone (.refl hu) hseen ht List.mem_cons_self ?_
    exact ih hg.after (hg.forall₂_reads htail) hr (fun hv hs hi hmem =>
      hone (hg.trans hv) hs hi (List.mem_cons_of_mem _ hmem)) _ h

/-- Above interfaces of some rank, a loop with a stack collects what the recursion does. -/
theorem CollectsOn.append {S : Signature} (hr : S.Ranking rank) {generations : Nat}
    {stack rest seen : List Handle} {ts seens : List Ty} {result : List Handle × Chronicle}
    (hu : u.Consistent) (hS : u.signature = S) (hstack : List.Forall₂ u.Reads stack ts)
    (hrank : ∀ t ∈ ts, ∃ decl, t.head? = some decl ∧ rank decl < generations)
    (hseen : List.Forall₂ u.Reads seen seens) (j : Journal)
    (h : CollectsOn (stack.foldlM (collect generations) seen ⟨u, j⟩).1 rest
      (stack.foldlM (collect generations) seen ⟨u, j⟩).2 result) :
    CollectsOn seen (stack ++ rest) ⟨u, j⟩ result := by
  induction generations generalizing u stack rest seen ts seens j with
  | zero =>
    cases hstack with
    | nil => exact h
    | cons =>
      obtain ⟨decl, -, hlt⟩ := hrank _ List.mem_cons_self
      exact absurd hlt (Nat.not_lt_zero _)
  | succ generations ih =>
    refine append_foldlM hu hstack hseen (fun {v seen seens interface t rest j} hv hs hi hmem h => ?_) j h
    rw [collect] at h
    split_ifs at h with hin
    · exact .skip (List.contains_iff_mem.1 hin) h
    · obtain ⟨hg, hinherited⟩ := declaredInterfaces_ensures hv.after hi j
      refine .add (fun hmem => hin (List.contains_iff_mem.2 hmem)) ?_
      refine ih hg.after ((hv.trans hg).signature.trans hS) hinherited (fun i hi => ?_)
        (List.rel_append (hg.forall₂_reads hs) (.cons (hg.reads ‹_›) .nil)) _ h
      obtain ⟨decl, hdecl, hlt⟩ := hrank t hmem
      rw [hv.signature, hS] at hi
      obtain ⟨parent, hparent, hlt'⟩ := hr.lt_of_mem_declaredBy hdecl hi
      exact ⟨parent, hparent, by omega⟩

/-- The interfaces that a known type declares, and all that they inherit, are collected by a loop with a
stack as by recursion: the same ones in the same order, and the same types are made on the way. -/
theorem collectsOn_declaredInterfaces (hu : u.Consistent) {ty : Handle} (hty : u.contains ty)
    {seen : List Handle} (hseen : ∀ i ∈ seen, u.contains i) (j : Journal) :
    let declared := declaredInterfaces ty ⟨u, j⟩
    CollectsOn seen declared.1 declared.2
      (declared.1.foldlM (collect u.catalog.size) seen declared.2) := by
  intro declared
  obtain ⟨hg, hdeclared⟩ := declaredInterfaces_ensures hu (Universe.reads_typeAt hty) j
  have hseen' : List.Forall₂ u.Reads seen (seen.map u.typeAt) :=
    List.forall₂_map_right_iff.2 (List.forall₂_same.2 fun i hi => Universe.reads_typeAt (hseen i hi))
  rw [← List.append_nil declared.1]
  refine CollectsOn.append hu.exists_ranking hg.after hg.signature hdeclared
    (fun t ht => hu.exists_ranking.lt_size_of_mem_declaredBy ht) (hg.forall₂_reads hseen')
    declared.2.journal ?_
  rw [List.append_nil]
  exact .empty

/-- No walk up the base chain goes further than the limit. -/
theorem length_baseChain_le (ty : Handle) (c : Chronicle) :
    (baseChain ty c).1.length ≤ Limits.hierarchy.depth := by
  have key : ∀ origin steps ty c, (chainFrom origin steps ty c).1.length ≤ steps := by
    intro origin steps
    induction steps with
    | zero => exact fun _ _ => Nat.le_refl 0
    | succ steps ih =>
      intro ty c
      rw [chainFrom, run_bind]
      cases (baseType ty c).1 with
      | none => exact Nat.succ_le_succ (Nat.zero_le steps)
      | some base => exact Nat.succ_le_succ (ih base _)
  exact key ty _ ty c

end UniverseM

namespace Universe

variable {u : Universe} {ty : Handle}

/-- Whether some parameter inside a type has a property of its owner, where `ask` looks into the
arguments. -/
def anyOwnerBy (u : Universe) (p : DeclId → Bool) (ask : Handle → Bool) (ty : Handle) : Bool :=
  match u.shape? ty with
  | some (.param owner _) => p owner
  | some (.applied _ args) => args.any ask
  | _ => false

/-- The walk down the arguments of a type ends after as many levels as there are types. -/
theorem anyOwnerBy_unfolded (hu : u.Consistent) (p : DeclId → Bool) (hty : u.contains ty)
    (beyond : Handle → Bool) {levels : Nat} (hlevels : u.typeCount ≤ levels) :
    unfolded (u.anyOwnerBy p) beyond levels ty = u.anyOwner p ty := by
  -- arguments are older than the type
  have key : ∀ n levels ty, u.contains ty → ty.num ≤ n → ty.num ≤ levels →
      unfolded (u.anyOwnerBy p) beyond levels ty = u.anyOwnerWithin p n ty := by
    intro n
    induction n with
    | zero =>
      intro levels ty hty hn _
      obtain ⟨shape, hs⟩ := exists_shape?_of_contains hty
      have := TypeTable.num_pos_of_shape? hs
      omega
    | succ n ih =>
      intro levels ty hty hn hlevels
      obtain ⟨shape, hs⟩ := exists_shape?_of_contains hty
      have hpos := TypeTable.num_pos_of_shape? hs
      obtain ⟨levels, rfl⟩ : ∃ k, levels = k + 1 := ⟨levels - 1, by omega⟩
      rw [unfolded, anyOwnerBy, anyOwnerWithin, hs]
      cases shape with
      | plain decl => rfl
      | param owner index => rfl
      | applied decl args =>
        dsimp only
        rw [Bool.eq_iff_iff, List.any_eq_true, List.any_eq_true]
        refine exists_congr fun arg => and_congr_right fun harg => ?_
        obtain ⟨hlt, hknown⟩ := hu.table.older hs arg harg
        rw [ih levels arg hknown (by omega) (by omega)]
  obtain ⟨shape, hs⟩ := exists_shape?_of_contains hty
  have hle := TypeTable.num_le_size_of_shape? hs
  exact key _ _ ty hty hle (hle.trans hlevels)

end Universe

/-- Where only closures that are right are put on record, the universe grows. -/
theorem Universe.Expands.grows_of_consistent {u v : Universe} (h : u.Expands (fun _ => False) v)
    (hu : u.Consistent) : u.Grows v := by
  have hv := h.grows.after
  refine ⟨hu, ⟨hv.table, hv.fits, hv.base, hv.interfaces, hv.bounds, hv.acyclic, fun hc => ?_⟩,
    h.grows.catalog, h.grows.ownTypes, h.grows.table⟩
  rcases h.closures hc with hold | hnew | ⟨-, hfalse⟩
  · obtain ⟨hty, hmem, hmap⟩ := hu.closures hold
    have hr : u.Records _ _ := ⟨hty, forall₂_reads_iff.2 ⟨hmem, hmap⟩⟩
    obtain ⟨hty', hreads⟩ := h.grows.records hr
    exact ⟨hty', forall₂_reads_iff.1 hreads⟩
  · exact ⟨hnew.1, forall₂_reads_iff.1 hnew.2⟩
  · exact hfalse.elim

/-! ## Pairs that were started -/

/-- How many pairs the work ended on, according to a journal. -/
def Journal.settled (j : Journal) : Nat :=
  j.events.countP Event.settles

theorem Journal.settled_note (j : Journal) (e : Event) :
    (j.note e).settled = j.settled + if e.settles then 1 else 0 :=
  Array.countP_push

theorem UniverseM.Simple.settled {α : Type} {x : UniverseM α} (hx : Simple x) (c : Chronicle) :
    (x c).2.journal.settled = c.journal.settled := by
  induction hx generalizing c with
  | pure => rfl
  | bind _ _ ih ihf => exact (ihf _ _).trans (ih c)
  | view => rfl
  | note he => exact (c.journal.settled_note _).trans (by rw [Event.settles_eq_false he]; rfl)
  | intern => rfl
  | record => rfl

namespace Search

open UniverseM

variable {α β : Type} {limits : Limits} {before n : Nat} {s : Search} {pair : Pair}

/-- How many pairs were started: those in progress and those that the work ended on. -/
def started (s : Search) : Nat :=
  s.chronicle.journal.settled + s.stack.size

/-- There is room for one more pair: fewer are in progress than the limits allow, and fewer were
started, from `before` on, than the limits allow, unless they allow as many as can be counted. -/
def HasRoom (limits : Limits) (before : Nat) (s : Search) : Prop :=
  s.stack.size < limits.depth ∧
    (limits.steps < Limits.counterCap → s.started < before + limits.steps)

instance : Decidable (HasRoom limits before s) :=
  inferInstanceAs (Decidable (_ ∧ _))

/-- Answers a question where `ask` answers those that it raises, with a watch on the limits: a pair that
is let in without room for it is left to `alarm`. -/
def watched (limits : Limits) (before : Nat) (alarm ask : Pair → SearchM (Option Handle))
    (pair : Pair) : SearchM (Option Handle) :=
  letIn pair do
    if HasRoom limits before (← get) then
      answerBy (substituteBy ask) pair
    else
      alarm pair

/-- With `n` pairs in progress, a search has kept within its limits so far. -/
structure Within (limits : Limits) (before n : Nat) (s : Search) : Prop where
  limits_eq : s.guard.limits = limits
  depth : s.guard.depth = n
  stack : s.stack.size = n
  steps_le : s.guard.steps ≤ Limits.counterCap
  started_le : limits.steps < Limits.counterCap →
    s.started ≤ before + min s.guard.steps limits.steps

theorem within_start (s : Solver) (limits : Limits) :
    Within limits s.chronicle.journal.settled 0 (.start s limits) :=
  ⟨rfl, rfl, rfl, Nat.zero_le _, fun _ => Nat.le_add_right _ _⟩

/-- Two pieces of work do the same to a search that has kept within its limits, and it still has. -/
def Watches (limits : Limits) (before n : Nat) (x x' : SearchM α) : Prop :=
  ∀ s, Within limits before n s → x' s = x s ∧ Within limits before n (x s).2

namespace Watches

theorem pure (a : α) : Watches limits before n (pure a) (pure a) :=
  fun _ hs => ⟨rfl, hs⟩

theorem bind {x x' : SearchM α} {f f' : α → SearchM β} (hx : Watches limits before n x x')
    (hf : ∀ a, Watches limits before n (f a) (f' a)) :
    Watches limits before n (x >>= f) (x' >>= f') := by
  intro s hs
  obtain ⟨heq, hafter⟩ := hx s hs
  rw [run_bind, run_bind, heq]
  exact hf _ _ hafter

theorem lift {x : UniverseM α} (hx : ∀ c, (x c).2.journal.settled = c.journal.settled) :
    Watches limits before n (liftM x : SearchM α) (liftM x) := by
  refine fun s hs => ⟨rfl, hs.limits_eq, hs.depth, hs.stack, hs.steps_le, fun h => ?_⟩
  refine Nat.le_trans (Nat.le_of_eq ?_) (hs.started_le h)
  exact congrArg (· + s.stack.size) (hx s.chronicle)

end Watches

variable (limits before n) in
theorem congruence_watches : Congruence SearchM SearchM (Watches limits before n) where
  pure := .pure
  bind := .bind
  lift hx := .lift hx.settled
  refuse := fun _ hs => ⟨rfl, hs.limits_eq, hs.depth, hs.stack, hs.steps_le, hs.started_le⟩

theorem lookup_watches (pair : Pair) : Watches limits before n (lookup pair) (lookup pair) :=
  fun _ hs => ⟨rfl, hs.limits_eq, hs.depth, hs.stack, hs.steps_le, hs.started_le⟩

theorem substituteBy_watches {ask ask' : Pair → SearchM (Option Handle)}
    (h : ∀ pair, Watches limits before n (ask pair) (ask' pair)) (source target : Handle) :
    Watches limits before n (substituteBy ask source target) (substituteBy ask' source target) := by
  refine Congruence.branch (P := Watches limits before n) (.pure _)
    (.bind (lookup_watches _) fun found => ?_)
  cases found with
  | none => exact h _
  | some verdict => exact .bind (.lift fun c => c.journal.settled_note _) fun _ => .pure _

/-! ## Letting a pair in -/

theorem limits_enter (g : Guard Pair) (pair : Pair) : (g.enter pair).2.limits = g.limits := by
  unfold Guard.enter
  dsimp only
  split_ifs <;> rfl

theorem steps_enter (g : Guard Pair) (pair : Pair) :
    (g.enter pair).2.steps = min (g.steps + 1) Limits.counterCap := by
  unfold Guard.enter
  dsimp only
  split_ifs <;> rfl

/-- A pair is let in only within the limits. -/
theorem steps_le_of_entered {g : Guard Pair} (h : (g.enter pair).1 = .entered) :
    (g.enter pair).2.steps ≤ g.limits.steps := by
  rw [steps_enter]
  unfold Guard.enter at h
  dsimp only at h
  split_ifs at h with hsteps
  omega

/-- What a pair that is not let in does to a search. -/
theorem letIn_of_ne_entered (answer : SearchM (Option Handle))
    (h : (s.guard.enter pair).1 ≠ .entered) :
    (letIn pair answer s).2.guard = (s.guard.enter pair).2 ∧
      (letIn pair answer s).2.started = s.started := by
  have hnoted : ∀ e : Event, e.settles = false →
      (s.chronicle.journal.note e).settled + s.stack.size = s.started := by
    intro e he
    rw [Journal.settled_note, he]
    rfl
  rcases enter_cases s.guard pair with ⟨admission, k, ha, he⟩ | ⟨-, k, he⟩ | ⟨-, -, k, he⟩
  · rw [letIn, letInWith_of_refused .plain answer he ha, he]
    cases s.guard.exceeded with
    | true => exact ⟨rfl, rfl⟩
    | false => exact ⟨rfl, hnoted _ rfl⟩
  · rw [letIn, letInWith_of_cycle .plain answer he, run_assumeWith, run_place, he]
    exact ⟨rfl, hnoted _ rfl⟩
  · exact absurd (congrArg Prod.fst he) h

/-- All that a question counts is its step, and what it starts it ends. -/
theorem Within.evaluate (hs : Within limits before n s) {levels : Nat}
    (hsteps : (evaluate levels pair s).2.guard.steps ≤ Limits.counterCap)
    (hstarted : limits.steps < Limits.counterCap → (evaluate levels pair s).2.started ≤
      before + min (evaluate levels pair s).2.guard.steps limits.steps) :
    Within limits before n (evaluate levels pair s).2 := by
  have hf := evaluate_frames levels pair s
  exact ⟨hf.limits.trans hs.limits_eq, hf.depth.trans hs.depth,
    (congrArg Array.size hf.stack).trans hs.stack, hsteps, hstarted⟩

/-- A pair that is not let in uses up a step at most. -/
theorem Within.evaluate_of_ne_entered (hs : Within limits before n s) (levels : Nat)
    (h : (s.guard.enter pair).1 ≠ .entered) :
    Within limits before n (Search.evaluate levels pair s).2 := by
  obtain ⟨answer, heval⟩ := evaluate_eq_letIn levels pair
  obtain ⟨hguard, hstarted⟩ := letIn_of_ne_entered answer h
  have hsteps := hs.steps_le
  rw [← heval] at hguard hstarted
  refine hs.evaluate ?_ fun hcap => ?_
  · rw [hguard, steps_enter]
    omega
  · have := hs.started_le hcap
    rw [hguard, steps_enter, hstarted]
    omega

/-- A pair that is let in finds room. -/
theorem Within.hasRoom (hs : Within limits before n s) (h : (s.guard.enter pair).1 = .entered) :
    HasRoom limits before { s with guard := (s.guard.enter pair).2 } := by
  have hsteps := steps_le_of_entered h
  rw [steps_enter, hs.limits_eq] at hsteps
  rcases entered_or s.guard pair with hne | ⟨hlt, -⟩
  · exact absurd h hne
  · rw [hs.limits_eq, hs.depth, ← hs.stack] at hlt
    refine ⟨hlt, fun hcap => ?_⟩
    have hle : s.started ≤ before + min s.guard.steps limits.steps := hs.started_le hcap
    show s.started < before + limits.steps
    omega

/-- A pair that is let in counts as started. -/
theorem Within.pushed (hs : Within limits before n s) {g : Guard Pair}
    (h : s.guard.enter pair = (.entered, g)) :
    Within limits before (n + 1)
      { s with guard := g, stack := s.stack.push pair, lowest := none } := by
  have hsteps := steps_enter s.guard pair
  have hle := steps_le_of_entered (congrArg Prod.fst h)
  have hlimits := limits_enter s.guard pair
  rcases entered_or s.guard pair with hne | ⟨-, k, hg⟩
  · exact absurd (congrArg Prod.fst h) hne
  · have hdepth : g.depth = s.guard.depth + 1 := congrArg (·.2.depth) (h.symm.trans hg)
    rw [h] at hsteps hle hlimits
    dsimp only at hsteps hle hlimits
    rw [hs.limits_eq] at hle
    refine ⟨hlimits.trans hs.limits_eq, hdepth.trans (congrArg (· + 1) hs.depth), ?_, ?_, ?_⟩
    · rw [Array.size_push, hs.stack]
    · show g.steps ≤ Limits.counterCap
      omega
    · intro hcap
      have hstarted := hs.started_le hcap
      have hpush : s.chronicle.journal.settled + (s.stack.push pair).size = s.started + 1 := by
        rw [Array.size_push]
        rfl
      show s.chronicle.journal.settled + (s.stack.push pair).size ≤ before + min g.steps limits.steps
      rw [hpush]
      omega

theorem steps_leave (g : Guard Pair) (pair : Pair) : (g.leave pair).steps = g.steps := by
  unfold Guard.leave Guard.leave?
  split_ifs <;> rfl

/-- Ending the work on a pair changes neither how many pairs were started nor the steps. -/
theorem settle_started (place refusals : Nat) (around : Option Nat) (computed : Option Handle)
    (hpos : 0 < s.stack.size) :
    (settle pair place around refusals computed s).2.started = s.started ∧
      (settle pair place around refusals computed s).2.guard.steps = s.guard.steps := by
  have hended : ∀ e : Event, e.settles = true →
      (s.chronicle.journal.note e).settled + s.stack.pop.size = s.started := by
    intro e he
    rw [Journal.settled_note, he, Array.size_pop, started, if_pos rfl]
    omega
  rw [run_settle]
  split_ifs
  · exact ⟨hended _ rfl, steps_leave _ _⟩
  · exact ⟨hended _ rfl, steps_leave _ _⟩

/-! ## The watch -/

theorem letIn_eq_of_ne_entered (answer answer' : SearchM (Option Handle))
    (h : (s.guard.enter pair).1 ≠ .entered) : letIn pair answer s = letIn pair answer' s := by
  rcases enter_cases s.guard pair with ⟨admission, k, ha, he⟩ | ⟨-, k, he⟩ | ⟨-, -, k, he⟩
  · exact (letInWith_of_refused .plain answer he ha).trans (letInWith_of_refused .plain answer' he ha).symm
  · exact (letInWith_of_cycle .plain answer he).trans (letInWith_of_cycle .plain answer' he).symm
  · exact absurd (congrArg Prod.fst he) h

/-- A pair that is let in is answered alike with and without a watch, if the questions that it raises
are. -/
theorem Within.watched_of_entered (hs : Within limits before n s)
    {alarm ask : Pair → SearchM (Option Handle)} {levels : Nat} {g : Guard Pair}
    (he : s.guard.enter pair = (.entered, g))
    (hask : ∀ pair, Watches limits before (n + 1) (Search.evaluate levels pair) (ask pair)) :
    watched limits before alarm ask pair s = Search.evaluate (levels + 1) pair s ∧
      Within limits before n (Search.evaluate (levels + 1) pair s).2 := by
  have hroom := hs.hasRoom (congrArg Prod.fst he)
  rw [he] at hroom
  obtain ⟨heq, hafter⟩ := (congruence_watches limits before (n + 1)).resolve
    (substituteBy_watches hask) pair.source pair.target _ (hs.pushed he)
  have heval := evaluate_of_entered levels he
  rw [run_bind] at heval
  constructor
  · have hwatched : watched limits before alarm ask pair s =
        answerBy (substituteBy ask) pair { s with guard := g } := by
      rw [watched, letIn_of_entered _ he]
      exact congrFun (if_pos hroom) _
    rw [hwatched, heval, ← heq]
    rfl
  · have hpos := Nat.lt_of_lt_of_eq (Nat.succ_pos n) hafter.stack.symm
    obtain ⟨hstarted, hsteps⟩ := settle_started s.stack.size s.refusals s.lowest
      (resolve (substituteBy (Search.evaluate levels)) pair.source pair.target
        { s with guard := g, stack := s.stack.push pair, lowest := none }).1 hpos
    refine hs.evaluate ?_ fun hcap => ?_
    · rw [heval, hsteps]
      exact hafter.steps_le
    · rw [heval, hstarted, hsteps]
      exact hafter.started_le hcap

/-- Unfolded beyond the depth that the limits allow, the search with a watch on them is the search:
neither the rest of the recursion nor the alarm is asked for. -/
theorem evaluate_watched {levels levels' : Nat} (alarm beyond : Pair → SearchM (Option Handle))
    (hn : n ≤ limits.depth) (h : limits.depth ≤ levels + n) (h' : limits.depth < levels' + n)
    (pair : Pair) :
    Watches limits before n (evaluate levels pair)
      (unfolded (watched limits before alarm) beyond levels' pair) := by
  induction levels generalizing levels' n pair with
  | zero =>
    intro s hs
    obtain ⟨levels', rfl⟩ : ∃ k, levels' = k + 1 := ⟨levels' - 1, by omega⟩
    rcases entered_or s.guard pair with hne | ⟨hlt, -⟩
    · exact ⟨letIn_eq_of_ne_entered _ _ hne, hs.evaluate_of_ne_entered 0 hne⟩
    · rw [hs.limits_eq, hs.depth] at hlt
      omega
  | succ levels ih =>
    intro s hs
    obtain ⟨levels', rfl⟩ : ∃ k, levels' = k + 1 := ⟨levels' - 1, by omega⟩
    rcases entered_or s.guard pair with hne | ⟨hlt, k, he⟩
    · exact ⟨letIn_eq_of_ne_entered _ _ hne, hs.evaluate_of_ne_entered _ hne⟩
    · rw [hs.limits_eq, hs.depth] at hlt
      exact hs.watched_of_entered he (ih (by omega) (by omega) (by omega))

/-- So is a query. -/
theorem checkBy_watches (alarm beyond : Pair → SearchM (Option Handle)) {levels : Nat}
    (hlevels : limits.depth < levels) (source target : Option Handle) :
    Watches limits before 0 (check source target)
      (checkBy (unfolded (watched limits before alarm) beyond levels) source target) := by
  cases source with
  | none => exact .pure _
  | some source =>
    cases target with
    | none => exact .pure _
    | some target =>
      refine Congruence.branch (P := Watches limits before 0) (.pure _)
        (.bind (lookup_watches _) fun found => ?_)
      cases found with
      | some verdict => exact .pure _
      | none =>
        refine .bind (fun s hs => ?_) fun _ => .bind (fun s hs => ⟨rfl, hs⟩) fun _ => .pure _
        have heval : (do Search.evaluate (← get).guard.limits.depth ⟨source, target⟩ :
            SearchM (Option Handle)) s = Search.evaluate limits.depth ⟨source, target⟩ s := by
          rw [← hs.limits_eq]
          rfl
        have hwatched := evaluate_watched alarm beyond (Nat.zero_le _) (Nat.le_refl _) hlevels
          ⟨source, target⟩ s hs
        rw [← heval] at hwatched
        exact hwatched

/-- A query on known types, whatever the verdicts on record, makes the universe grow. -/
theorem check_grows (hs : s.univ.Valid) {source target : Handle} (hsource : s.univ.contains source) :
    s.univ.Grows (check (some source) (some target) s).2.univ := by
  refine (check_widens (A := fun _ => False) (some source) (some target) ?_ hs.grounded).grows_of_consistent
    hs.consistent
  intro ty hty hunknown
  cases hty
  rw [hsource] at hunknown
  cases hunknown

/-- A query on known types ends within its limits, whatever verdicts are on record. Unfolded beyond the
allowed depth, with a watch that raises an alarm when a pair is let in while as many as allowed are in
progress or were started, it is the same query; so the work ends on no more pairs than allowed. All
universes on the way grow from the first one, and in these every walk of the search ends. -/
theorem check_within_limits {c : Chronicle} (hc : c.univ.Built) {s : Solver}
    (hg : c.univ.Grows s.univ) (limits : Limits) (source target : Handle)
    (hsource : s.univ.contains source) :
    let before := s.chronicle.journal.settled
    let r := check (some source) (some target) (.start s limits)
    (∀ alarm beyond levels, limits.depth < levels →
      checkBy (unfolded (watched limits before alarm) beyond levels) (some source) (some target)
        (.start s limits) = r) ∧
    (limits.steps < Limits.counterCap →
      r.2.chronicle.journal.settled ≤ before + limits.steps) ∧
    s.univ.Grows r.2.univ ∧
    ∀ v, s.univ.Grows v → ∀ ty, v.contains ty →
      (∀ j beyond levels, v.catalog.size ≤ levels →
        computeInterfacesBy (unfolded collectBy beyond levels) ty ⟨v, j⟩ =
          computeInterfaces ty ⟨v, j⟩) ∧
      (∀ beyond levels, v.typeCount ≤ levels →
        unfolded (v.anyOwnerBy fun _ => true) beyond levels ty = v.isOpen ty) ∧
      ∀ j, (baseChain ty ⟨v, j⟩).1.length ≤ Limits.hierarchy.depth := by
  intro before r
  have hwatches : ∀ alarm beyond levels, limits.depth < levels →
      checkBy (unfolded (watched limits before alarm) beyond levels) (some source) (some target)
        (.start s limits) = r ∧ Within limits before 0 r.2 :=
    fun alarm beyond levels hlevels =>
      checkBy_watches alarm beyond hlevels (some source) (some target) _ (within_start s limits)
  refine ⟨fun alarm beyond levels hlevels => (hwatches alarm beyond levels hlevels).1, ?_, ?_, ?_⟩
  · intro hcap
    obtain ⟨-, hafter⟩ := hwatches (fun _ => pure none) (fun _ => pure none) _ (Nat.lt_succ_self _)
    calc r.2.chronicle.journal.settled
      _ ≤ r.2.started := Nat.le_add_right _ _
      _ ≤ before + min r.2.guard.steps limits.steps := hafter.started_le hcap
      _ ≤ before + limits.steps := Nat.add_le_add_left (Nat.min_le_right _ _) _
  · exact check_grows (s := .start s limits) (hg.valid hc.valid) hsource
  · intro v hv ty hty
    exact ⟨fun j beyond levels => computeInterfacesBy_unfolded hv.after hty beyond (j := j),
      fun beyond levels => Universe.anyOwnerBy_unfolded hv.after _ hty beyond,
      fun j => length_baseChain_le ty ⟨v, j⟩⟩

end Search

/-- The universe of an interface `I<T>` that bounds its own parameter by `I<T>`, and a class `C<U>` that
implements `I<C<C<U>>>`, so that a question about `C<X>` raises one about `C<C<X>>`, and so on. The types
are `T`, `I<T>`, `U`, `C<U>`, `C<C<U>>`, `I<C<C<U>>>`, `X` and `C<X>`, in this order. -/
def Chronicle.expansive : Chronicle :=
  Operation.runAll
    [.declare (.bare .interfaceKind "I" ["T"]), .addConstraint ⟨1⟩ ⟨2⟩,
      .declare (.bare .classKind "C" ["U"]), .apply ⟨4⟩ [⟨4⟩], .apply ⟨2⟩ [⟨5⟩],
      .addInterface ⟨4⟩ ⟨6⟩, .declare (.bare .classKind "X" []), .apply ⟨4⟩ [⟨7⟩]] .fresh

set_option maxRecDepth 2000 in
/-- The query whether `C<X>` is an `I<>` would go on for ever without limits, and ends within them. -/
theorem Search.check_within_limits_expansive :
    Chronicle.expansive.univ.Built ∧
    let r := Search.check (some ⟨8⟩) (some ⟨2⟩) (.start ⟨.expansive, {}⟩ ⟨2, 9⟩)
    r.1.depthExceeded = true ∧ r.2.chronicle.journal.settled ≤ 9 ∧
      ∀ alarm beyond, Search.checkBy (unfolded (Search.watched ⟨2, 9⟩ 0 alarm) beyond 3) (some ⟨8⟩)
        (some ⟨2⟩) (.start ⟨.expansive, {}⟩ ⟨2, 9⟩) = r := by
  have hbuilt : Chronicle.expansive.univ.Built := Operation.built_runAll .empty (by cbv)
  have hsettled : Chronicle.expansive.journal.settled = 0 := by cbv
  obtain ⟨hwatched, hcount, -⟩ := Search.check_within_limits hbuilt
    (s := ⟨.expansive, {}⟩) (.refl hbuilt.valid.consistent) ⟨2, 9⟩ ⟨8⟩ ⟨2⟩ (by cbv)
  rw [hsettled] at hwatched hcount
  exact ⟨hbuilt, by cbv, hcount (by decide), fun alarm beyond => hwatched alarm beyond 3 (by decide)⟩

end Subtyping
