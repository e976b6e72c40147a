import Subtyping.Proofs.Conclusive
import Subtyping.Proofs.Depth
import Subtyping.Proofs.Steps

/-!
# The ledger of a solver

A solver counts the look-ups that found a verdict on record and those that found none. The journal says
what became of them, except that a search notes only the first refusal by a limit. A search that notes
every refusal keeps a ledger in its journal (`Search.audited`). It also puts each verdict on record over
what is there, and raises an alarm if there is something. It is the same search, since no verdict is
recorded for a pair in progress but its own (`Search.evaluate_audits`).

`Verdicts.Reconciles` says that a list of events accounts for what became of the verdicts and of the
counts. A question that was looked up and not found is owed until it ends, in one of four ways, and the
event of its end pays for it (`Event.closes`). Whatever a solver is used for, the ledger accounts for it
from the beginning or from the last time that the verdicts were cleared (`Solver.verdicts_add_up`).
-/

namespace Subtyping

/-! ## What events report -/

namespace Event

/-- The verdict that an event says was recorded. -/
def recorded? : Event → Option (Pair × Verdict)
  | verdict pair r => some (pair, .ofSubstitution r)
  | _ => none

/-- A limit refused a question. -/
def refuses : Event → Bool
  | limitReached _ _ _ _ => true
  | _ => false

/-- A question was assumed to hold, being in progress. -/
def assumes : Event → Bool
  | cycleAssumed _ _ => true
  | _ => false

/-- A question was answered, and the verdict was not recorded. -/
def withholds : Event → Bool
  | verdictWithheld _ _ _ => true
  | _ => false

/-- A verdict on record answered a nested question or a query. -/
def reuses : Event → Bool
  | verdictReused _ => true
  | queryEnded _ _ cacheHit _ => cacheHit
  | _ => false

/-- The end of a question that no verdict on record answered. -/
def closes (e : Event) : Bool :=
  e.recorded?.isSome || e.refuses || e.assumes || e.withholds

theorem of_reports_eq_false {e : Event} (he : e.reports = false) :
    e.recorded? = none ∧ e.closes = false ∧ e.reuses = false := by
  cases e <;> first | exact ⟨rfl, rfl, rfl⟩ | cases he

theorem refuses_eq_false_of_reuses (e : Event) (he : e.reuses) : e.refuses = false := by
  cases e <;> first | rfl | cases he

end Event

/-- The verdicts that were recorded according to some events, in order. -/
def verdictsOf (events : List Event) : List (Pair × Verdict) :=
  events.filterMap Event.recorded?

@[simp]
theorem verdictsOf_append (events later : List Event) :
    verdictsOf (events ++ later) = verdictsOf events ++ verdictsOf later :=
  List.filterMap_append

/-- A question that no verdict on record answered ends in one of four ways. -/
theorem countP_closes (events : List Event) :
    events.countP Event.closes = (verdictsOf events).length + events.countP Event.refuses +
      events.countP Event.assumes + events.countP Event.withholds := by
  induction events with
  | nil => rfl
  | cons e events ih =>
    simp only [List.countP_cons, ih, verdictsOf, List.filterMap_cons]
    cases e <;> simp [Event.closes, Event.recorded?, Event.refuses, Event.assumes, Event.withholds] <;>
      omega

section Abridged

variable {events events' : List Event}
  (h : events.filter (!·.refuses) = events'.filter (!·.refuses))
include h

theorem verdictsOf_eq_of_abridged : verdictsOf events = verdictsOf events' := by
  have hfilter : ∀ l : List Event, verdictsOf (l.filter (!·.refuses)) = verdictsOf l := by
    intro l
    rw [verdictsOf, List.filterMap_filter]
    refine List.filterMap_congr fun e _ => ?_
    cases e <;> rfl
  rw [← hfilter, h, hfilter]

theorem countP_eq_of_abridged {p : Event → Bool} (hp : ∀ e, p e → e.refuses = false) :
    events.countP p = events'.countP p := by
  have hfilter : ∀ l : List Event, (l.filter (!·.refuses)).countP p = l.countP p := by
    intro l
    rw [List.countP_filter]
    refine List.countP_congr fun e _ => ?_
    simpa using hp e
  rw [← hfilter, h, hfilter]

end Abridged

/-! ## Verdicts and events -/

namespace Verdicts

variable {v v' v'' : Verdicts} {events later : List Event} {owed owed' : Nat} {pair : Pair}

/-- Events account for what became of verdicts on record and of the counts of look-ups, where `owed`
is the number of questions that were looked up before and end on the way. -/
structure Reconciles (v : Verdicts) (events : List Event) (owed : Nat) (v' : Verdicts) : Prop where
  entries : v'.entries = v.entries.insertMany (verdictsOf events)
  new : ∀ r ∈ verdictsOf events, r.1 ∉ v.entries
  nodup : ((verdictsOf events).map Prod.fst).Nodup
  proper : ∀ r ∈ verdictsOf events, r.1.source ≠ r.1.target
  hits : v'.hits = v.hits + events.countP Event.reuses
  misses : v'.misses + owed = v.misses + events.countP Event.closes

namespace Reconciles

/-- No verdict was recorded. -/
theorem of_nil (hnil : verdictsOf events = []) (hentries : v'.entries = v.entries)
    (hhits : v'.hits = v.hits + events.countP Event.reuses)
    (hmisses : v'.misses + owed = v.misses + events.countP Event.closes) :
    v.Reconciles events owed v' := by
  refine ⟨?_, ?_, ?_, ?_, hhits, hmisses⟩
  · rw [hnil, hentries, Std.HashMap.insertMany_nil]
  all_goals simp [hnil]

theorem asides (h : ∀ e ∈ events, e.reports = false) : v.Reconciles events 0 v := by
  refine .of_nil (List.filterMap_eq_nil_iff.2 fun e he => (Event.of_reports_eq_false (h e he)).1) rfl ?_ ?_
  · rw [List.countP_eq_zero.2 fun e he => by simp [(Event.of_reports_eq_false (h e he)).2.2]]
    rfl
  · rw [List.countP_eq_zero.2 fun e he => by simp [(Event.of_reports_eq_false (h e he)).2.1]]

theorem append (h : v.Reconciles events owed v') (h' : v'.Reconciles later owed' v'') :
    v.Reconciles (events ++ later) (owed + owed') v'' := by
  have hnew : ∀ r ∈ verdictsOf later, r.1 ∉ v.entries ∧ r.1 ∉ (verdictsOf events).map Prod.fst := by
    intro r hr
    have hmem := h'.new r hr
    rw [h.entries, Std.HashMap.mem_insertMany_list, List.contains_iff_mem, not_or] at hmem
    exact hmem
  refine ⟨?_, fun r hr => ?_, ?_, fun r hr => ?_, ?_, ?_⟩
  · rw [h'.entries, h.entries, verdictsOf_append, Std.HashMap.insertMany_append]
  · rw [verdictsOf_append] at hr
    exact (List.mem_append.1 hr).elim (h.new r) fun hr => (hnew r hr).1
  · rw [verdictsOf_append, List.map_append]
    refine List.nodup_append.2 ⟨h.nodup, h'.nodup, ?_⟩
    rintro p hp q hq rfl
    obtain ⟨r, hr, rfl⟩ := List.mem_map.1 hq
    exact (hnew r hr).2 hp
  · rw [verdictsOf_append] at hr
    exact (List.mem_append.1 hr).elim (h.proper r) (h'.proper r)
  · rw [List.countP_append, h'.hits, h.hits, Nat.add_assoc]
  · have hmisses := h.misses
    have hmisses' := h'.misses
    rw [List.countP_append]
    omega

/-- A pair off the record gets its verdict. -/
theorem insert (hnew : pair ∉ v.entries) (hproper : pair.source ≠ pair.target) (r : Option Handle) :
    v.Reconciles [.verdict pair r] 1
      { v with entries := v.entries.insert pair (.ofSubstitution r) } := by
  have hverdicts : verdictsOf [.verdict pair r] = [(pair, .ofSubstitution r)] := rfl
  refine ⟨?_, ?_, ?_, ?_, rfl, rfl⟩
  · rw [hverdicts, Std.HashMap.insertMany_list_singleton]
  all_goals simp [hverdicts, hnew, hproper]

/-- A verdict on record is found. -/
theorem reused {e : Event} (he : e.reuses) : v.Reconciles [e] 0 { v with hits := v.hits + 1 } := by
  cases e with
  | verdictReused pair => exact .of_nil rfl rfl rfl rfl
  | queryEnded query substitution cacheHit depthExceeded =>
    obtain rfl : cacheHit = true := he
    exact .of_nil rfl rfl rfl rfl
  | _ => cases he

theorem pairwise_ne (h : v.Reconciles events owed v') :
    (verdictsOf events).Pairwise fun r r' => (r.1 == r'.1) = false :=
  (List.pairwise_map.1 h.nodup).imp fun hne => beq_eq_false_iff_ne.2 hne

/-- What was recorded is on record. -/
theorem getElem?_of_mem (h : v.Reconciles events owed v') {r : Pair × Verdict}
    (hr : r ∈ verdictsOf events) : v'.entries[r.1]? = some r.2 := by
  rw [h.entries]
  exact Std.HashMap.getElem?_insertMany_list_of_mem (beq_self_eq_true r.1) h.pairwise_ne hr

theorem size_eq (h : v.Reconciles events owed v') :
    v'.size = v.size + (verdictsOf events).length := by
  rw [size, h.entries]
  refine Std.HashMap.size_insertMany_list h.pairwise_ne fun p hp => ?_
  rw [← Bool.not_eq_true, List.contains_iff_mem]
  intro hmem
  obtain ⟨r, hr, rfl⟩ := List.mem_map.1 hmem
  exact h.new r hr hp

/-- Where nothing was on record, there is what was recorded. -/
theorem size_of_new (h : ({} : Verdicts).Reconciles events owed v) :
    v.size = (verdictsOf events).length := by
  rw [h.size_eq, size, Std.HashMap.size_empty, Nat.zero_add]

/-- Each look-up that found nothing led to one of four ends. -/
theorem misses_of_new (h : ({} : Verdicts).Reconciles events 0 v) :
    v.misses = v.size + events.countP Event.refuses + events.countP Event.assumes +
      events.countP Event.withholds := by
  have hmisses := h.misses
  rwa [countP_closes, ← h.size_of_new, Nat.add_zero, Nat.zero_add] at hmisses

/-- What is on record stays. -/
theorem getElem?_eq_some (h : v.Reconciles events owed v') {verdict : Verdict}
    (hverdict : v.entries[pair]? = some verdict) : v'.entries[pair]? = some verdict := by
  rw [h.entries, Std.HashMap.getElem?_insertMany_list_of_contains_eq_false, hverdict]
  rw [← Bool.not_eq_true, List.contains_iff_mem]
  intro hmem
  obtain ⟨r, hr, rfl⟩ := List.mem_map.1 hmem
  exact h.new r hr (Std.HashMap.mem_iff_isSome_getElem?.2 (Option.isSome_of_eq_some hverdict))

end Reconciles

theorem lookup_of_mem {verdict : Verdict} (h : v.entries[pair]? = some verdict) :
    v.lookup pair = (some verdict, { v with hits := v.hits + 1 }) := by
  rw [lookup, h]

theorem lookup_of_not_mem (h : pair ∉ v.entries) :
    v.lookup pair = (none, { v with misses := v.misses + 1 }) := by
  rw [lookup, Std.HashMap.getElem?_eq_none h]

theorem record_of_not_mem (h : pair ∉ v.entries) (verdict : Verdict) :
    v.record pair verdict = (verdict, { v with entries := v.entries.insert pair verdict }) := by
  rw [record, Std.HashMap.getElem?_eq_none h]

/-- A question that was looked up and not found is owed until it ends. -/
theorem Reconciles.of_missed
    (h : Reconciles { v with misses := v.misses + 1 } events 1 v') : v.Reconciles events 0 v' := by
  have hmisses := h.misses
  dsimp only at hmisses
  exact ⟨h.entries, h.new, h.nodup, h.proper, h.hits, by omega⟩

end Verdicts

/-! ## Searches that keep a ledger -/

/-- The same with other events in the journal. -/
def Chronicle.withEvents (c : Chronicle) (events : Array Event) : Chronicle :=
  { c with journal := { c.journal with events } }

namespace Search

open UniverseM

variable {α β : Type} {limits : Limits} {n owed owed' : Nat} {s t : Search} {pair : Pair}

/-- The same with other events in the journal. -/
def withEvents (s : Search) (events : Array Event) : Search :=
  { s with chronicle := s.chronicle.withEvents events }

/-- Puts the verdict that was computed for a pair on record, whatever is there. A pair that is there
already raises an alarm. -/
def recordAnew (alarm : SearchM Unit) (pair : Pair) (computed : Option Handle) :
    SearchM (Option Handle) := do
  if pair ∈ (← get).verdicts.entries then
    alarm
  modify fun s => { s with verdicts := { s.verdicts with
    entries := s.verdicts.entries.insert pair (.ofSubstitution computed) } }
  note (.verdict pair computed)
  return computed

/-- Every refusal is noted, and verdicts are recorded whatever is there. -/
def Hooks.auditing (alarm : SearchM Unit) : Hooks SearchM :=
  { Hooks.plain with
    refused := fun _ pair admission => noteRefusal pair admission
    keep := recordAnew alarm }

/-- Answers a question where `ask` answers those that it raises, and keeps the ledger in its journal. -/
def audited (alarm : SearchM Unit) (ask : Pair → SearchM (Option Handle)) (pair : Pair) :
    SearchM (Option Handle) :=
  askWith (.auditing alarm) ask pair

/-- Between two states of a search, the ledger accounts for the verdicts, and the journal has all of it
but some refusals. -/
structure Booked (s : Search) (owed : Nat) (ledger noted : List Event) (s' : Search) : Prop where
  verdicts : s.verdicts.Reconciles ledger owed s'.verdicts
  journal : s'.chronicle.journal = s.chronicle.journal.noteAll noted
  abridged : noted.filter (!·.refuses) = ledger.filter (!·.refuses)

/-- From a state, two pieces of work do the same, and the second keeps a ledger in its journal. -/
def AuditsAt (s : Search) (owed : Nat) (x x' : SearchM α) : Prop :=
  ∃ ledger noted, Booked s owed ledger noted (x s).2 ∧
    ∀ events, x' (s.withEvents events) = ((x s).1, (x s).2.withEvents (events ++ ledger.toArray))

namespace AuditsAt

theorem bind {x x' : SearchM α} {f f' : α → SearchM β} (hx : AuditsAt s owed x x')
    (hf : AuditsAt (x s).2 owed' (f (x s).1) (f' (x s).1)) :
    AuditsAt s (owed + owed') (x >>= f) (x' >>= f') := by
  obtain ⟨ledger, noted, hbooked, hrun⟩ := hx
  obtain ⟨ledger', noted', hbooked', hrun'⟩ := hf
  refine ⟨ledger ++ ledger', noted ++ noted', ⟨hbooked.verdicts.append hbooked'.verdicts, ?_, ?_⟩,
    fun events => ?_⟩
  · rw [run_bind, hbooked'.journal, hbooked.journal, Journal.noteAll_noteAll]
  · rw [List.filter_append, List.filter_append, hbooked.abridged, hbooked'.abridged]
  · rw [run_bind, run_bind, hrun, hrun', Array.append_assoc, List.append_toArray ledger ledger']

/-- Work that goes on from another state, with the journal as it was. -/
theorem of_run {x x' y y' : SearchM α} (h : AuditsAt t owed y y')
    (hverdicts : ∀ ledger v, t.verdicts.Reconciles ledger owed v → s.verdicts.Reconciles ledger owed' v)
    (hjournal : t.chronicle.journal = s.chronicle.journal) (hx : x s = y t)
    (hx' : ∀ events, x' (s.withEvents events) = y' (t.withEvents events)) : AuditsAt s owed' x x' := by
  obtain ⟨ledger, noted, hbooked, hrun⟩ := h
  refine ⟨ledger, noted, ?_, fun events => ?_⟩
  · rw [hx]
    exact ⟨hverdicts _ _ hbooked.verdicts, hjournal ▸ hbooked.journal, hbooked.abridged⟩
  · rw [hx', hrun, hx]

/-- Work on the universe that reports on no question. -/
theorem lift {x : UniverseM α} (hx : Aside x) (s : Search) :
    AuditsAt s 0 (liftM x : SearchM α) (liftM x) := by
  obtain ⟨a, v, noted, hnoted, hrun⟩ := hx s.univ
  have hlift : ∀ t : Search, t.univ = s.univ → (liftM x : SearchM α) t =
      (a, { t with chronicle := ⟨v, t.chronicle.journal.noteAll noted⟩ }) := by
    intro t ht
    have hchronicle : t.chronicle = ⟨s.univ, t.chronicle.journal⟩ := by rw [← ht]
    show ((x t.chronicle).1, { t with chronicle := (x t.chronicle).2 }) = _
    rw [hchronicle, hrun]
  refine ⟨noted, noted, ⟨?_, ?_, rfl⟩, fun events => ?_⟩
  · rw [hlift s rfl]
    exact .asides hnoted
  · rw [hlift s rfl]
  · rw [hlift s rfl, hlift (s.withEvents events) rfl]
    rfl

theorem pure (a : α) (s : Search) : AuditsAt s 0 (pure a) (pure a) :=
  .lift (.pure a) s

/-- An answer with a report, while the verdicts stay. -/
theorem report {e : Event} (h : s.verdicts.Reconciles [e] owed s.verdicts) (a : α) :
    AuditsAt s owed (do note e; return a) (do note e; return a) :=
  ⟨[e], [e], ⟨h, s.chronicle.journal.note_eq_noteAll e, rfl⟩, fun events => by
    rw [← Array.push_eq_append]
    rfl⟩

end AuditsAt

/-- Under limits and with `n` pairs in progress, two pieces of work do the same, and the second keeps a
ledger in its journal. -/
structure Audits (limits : Limits) (n : Nat) (x x' : SearchM α) : Prop where
  frames : Frames x
  audits : ∀ s : Search, s.guard.limits = limits → s.guard.depth = n → AuditsAt s 0 x x'

variable (limits n) in
theorem congruence_audits : Congruence SearchM SearchM (Audits limits n) where
  pure a := ⟨.pure a, fun s _ _ => .pure a s⟩
  bind hx hf := ⟨.bind hx.frames fun a => (hf a).frames, fun s hlimits hdepth =>
    (hx.audits s hlimits hdepth).bind ((hf _).audits _ ((hx.frames s).limits.trans hlimits)
      ((hx.frames s).depth.trans hdepth))⟩
  lift hx := ⟨.lift hx.quiet, fun s _ _ => .lift hx.aside s⟩
  refuse := ⟨refuse_frames, fun s _ _ => .of_run (.pure () { s with refusals := s.refusals + 1 })
    (fun _ _ h => h) rfl rfl fun _ => rfl⟩

/-! ## Questions -/

/-- Under limits and with `n` pairs in progress, questions off the record are answered alike, and one
keeps a ledger in its journal. -/
structure AuditsAll (limits : Limits) (n : Nat) (ask ask' : Pair → SearchM (Option Handle)) : Prop where
  frames : ∀ pair, Frames (ask pair)
  audits : ∀ (pair : Pair) (s : Search), s.guard.limits = limits → s.guard.depth = n →
    pair ∉ s.verdicts.entries → pair.source ≠ pair.target → AuditsAt s 1 (ask pair) (ask' pair)

/-- A look-up that finds a verdict leads to an answer and to the note that it did; one that finds none leads
to a question that is owed. -/
theorem lookup_audits {k k' : Option Verdict → SearchM α}
    (hfound : ∀ verdict, ∃ e a, e.reuses ∧ k (some verdict) = (do note e; return a) ∧
      k' (some verdict) = (do note e; return a))
    (hmissed : pair ∉ s.verdicts.entries →
      AuditsAt { s with verdicts := { s.verdicts with misses := s.verdicts.misses + 1 } } 1
        (k none) (k' none)) :
    AuditsAt s 0 (lookup pair >>= k) (lookup pair >>= k') := by
  have hlookup : ∀ (t : Search) (f : Option Verdict → SearchM α), (lookup pair >>= f) t =
      f (t.verdicts.lookup pair).1 { t with verdicts := (t.verdicts.lookup pair).2 } := fun _ _ => rfl
  cases hentry : s.verdicts.entries[pair]? with
  | some verdict =>
    obtain ⟨e, a, he, hk, hk'⟩ := hfound verdict
    refine ⟨[e], [e], ?_, fun events => ?_⟩
    · rw [hlookup, Verdicts.lookup_of_mem hentry, hk]
      exact ⟨.reused he, s.chronicle.journal.note_eq_noteAll e, rfl⟩
    · have hentry' : (s.withEvents events).verdicts.entries[pair]? = some verdict := hentry
      rw [hlookup, hlookup, Verdicts.lookup_of_mem hentry, Verdicts.lookup_of_mem hentry', hk, hk',
        ← Array.push_eq_append]
      rfl
  | none =>
    have hmem : pair ∉ s.verdicts.entries := by
      rwa [Std.HashMap.mem_iff_isSome_getElem?, Option.not_isSome_iff_eq_none]
    refine .of_run (hmissed hmem) (fun _ _ => .of_missed) rfl ?_ fun events => ?_
    · rw [hlookup, Verdicts.lookup_of_not_mem hmem]
    · have hmem' : pair ∉ (s.withEvents events).verdicts.entries := hmem
      rw [hlookup, Verdicts.lookup_of_not_mem hmem']
      rfl

theorem substituteBy_audits {ask ask' : Pair → SearchM (Option Handle)}
    (h : AuditsAll limits n ask ask') (source target : Handle) :
    Audits limits n (substituteBy ask source target) (substituteBy ask' source target) := by
  refine ⟨substituteBy_frames h.frames source target, fun s hlimits hdepth => ?_⟩
  rw [substituteBy, substituteBy]
  split_ifs with heq
  · exact .pure _ s
  · exact lookup_audits (fun verdict => ⟨_, _, rfl, rfl, rfl⟩) fun hmem =>
      h.audits _ _ hlimits hdepth hmem heq

/-! ## Ways in which a question ends -/

section LetIn

variable (alarm : SearchM Unit) {admission : Admission} {g : Guard Pair}
  (answer answer' : SearchM (Option Handle))

/-- A refusal is in the ledger, whether or not the journal has it. -/
theorem letIn_audits_of_refused (he : s.guard.enter pair = (admission, g)) (ha : admission.isExceeded) :
    AuditsAt s 1 (letIn pair answer) (letInWith (.auditing alarm) pair answer') := by
  have hrun : ∃ noted ∈ [[], [.limitReached pair g.depth g.steps admission]],
      letIn pair answer s = (none, { s with
        guard := g, refusals := s.refusals + 1,
        chronicle := { s.chronicle with journal := s.chronicle.journal.noteAll noted } }) := by
    rw [letIn, letInWith_of_refused .plain answer he ha]
    cases s.guard.exceeded with
    | true => exact ⟨[], by simp, by rw [Journal.noteAll_nil]; rfl⟩
    | false =>
      exact ⟨_, List.mem_cons_of_mem _ List.mem_cons_self, by rw [← Journal.note_eq_noteAll]; rfl⟩
  obtain ⟨noted, hnoted, hrun⟩ := hrun
  refine ⟨[.limitReached pair g.depth g.steps admission], noted, ?_, fun events => ?_⟩
  · rw [hrun]
    refine ⟨.of_nil rfl rfl rfl rfl, rfl, ?_⟩
    rcases List.mem_pair.1 hnoted with rfl | rfl <;> rfl
  · have he' : (s.withEvents events).guard.enter pair = (admission, g) := he
    rw [letInWith_of_refused _ answer' he' ha, hrun, ← Array.push_eq_append]
    rfl

/-- A pair in progress is assumed to hold. -/
theorem letIn_audits_of_cycle (he : s.guard.enter pair = (.cycle, g)) :
    AuditsAt s 1 (letIn pair answer) (letInWith (.auditing alarm) pair answer') := by
  have hassumed : s.verdicts.Reconciles [.cycleAssumed pair ((s.stack.idxOf? pair).getD 0)] 1 s.verdicts :=
    .of_nil rfl rfl rfl rfl
  have hplace : ∀ t : Search, placeWith (.auditing alarm) pair t = ((t.stack.idxOf? pair).getD 0, t) :=
    run_place pair
  refine .of_run (.report (s := { s with
    guard := g
    lowest := outermost s.lowest (some ((s.stack.idxOf? pair).getD 0)) }) hassumed (some pair.source))
    (fun _ _ h => h) rfl ?_ fun events => ?_
  · rw [letIn, letInWith_of_cycle .plain answer he, run_assumeWith, run_place]
    rfl
  · have he' : (s.withEvents events).guard.enter pair = (.cycle, g) := he
    rw [letInWith_of_cycle _ answer' he', run_assumeWith, hplace]
    rfl

end LetIn

/-- A pair off the record is recorded as computed, without an alarm. -/
theorem record_audits (alarm : SearchM Unit) (hmem : pair ∉ s.verdicts.entries)
    (hproper : pair.source ≠ pair.target) (computed : Option Handle) :
    AuditsAt s 1 (recordAnswer pair computed) (recordAnew alarm pair computed) := by
  have hrun := run_recordAnswer pair computed s
  rw [Verdicts.record_of_not_mem hmem] at hrun
  dsimp only at hrun
  rw [Verdict.substitution?_ofSubstitution] at hrun
  refine ⟨[.verdict pair computed], [.verdict pair computed], ?_, fun events => ?_⟩
  · rw [hrun]
    exact ⟨.insert hmem hproper computed, s.chronicle.journal.note_eq_noteAll _, rfl⟩
  · have hcheck : pair ∉ (s.withEvents events).verdicts.entries := hmem
    rw [hrun, ← Array.push_eq_append]
    show (if pair ∈ (s.withEvents events).verdicts.entries then _ else _ : SearchM (Option Handle)) _ = _
    rw [if_neg hcheck]
    rfl

theorem settle_audits (alarm : SearchM Unit) (hmem : pair ∉ s.verdicts.entries)
    (hproper : pair.source ≠ pair.target) (place before : Nat) (around : Option Nat)
    (computed : Option Handle) :
    AuditsAt s 1 (settle pair place around before computed)
      (settleWith (.auditing alarm) pair place around before computed) := by
  have hwithheld : (s.popped pair place around).verdicts.Reconciles
      [.verdictWithheld pair (s.provisional place) computed.isSome] 1 (s.popped pair place around).verdicts :=
    .of_nil rfl rfl rfl rfl
  have hended := Congruence.branch (P := AuditsAt (s.popped pair place around) 1)
    (c := (s.provisional place || s.refusals != before) = true) (.report hwithheld computed)
    (record_audits (s := s.popped pair place around) alarm hmem hproper computed)
  exact .of_run hended (fun _ _ h => h) rfl (run_settle ..) fun events => run_settleWith ..

/-! ## Whole searches -/

theorem run_audited (alarm : SearchM Unit) (ask : Pair → SearchM (Option Handle)) {k : Nat}
    (he : s.guard.enter pair = (.entered, (s.pushed pair k).guard)) :
    audited alarm ask pair s = (resolve (substituteBy ask) pair.source pair.target >>=
      settleWith (.auditing alarm) pair s.stack.size s.lowest s.refusals) (s.pushed pair k) := by
  rw [audited, askWith, letInWith_of_entered _ _ he]
  rfl

/-- A question that is let in ends once those that it raises have ended. -/
theorem audited_of_entered (alarm : SearchM Unit) {ask : Pair → SearchM (Option Handle)} {levels k : Nat}
    (hask : AuditsAll limits (n + 1) (evaluate levels) ask) (hlimits : s.guard.limits = limits)
    (hdepth : s.guard.depth = n) (hmem : pair ∉ s.verdicts.entries)
    (hproper : pair.source ≠ pair.target)
    (he : s.guard.enter pair = (.entered, (s.pushed pair k).guard)) :
    AuditsAt s 1 (evaluate (levels + 1) pair) (audited alarm ask pair) := by
  have hresolve := ((congruence_audits limits (n + 1)).resolve (substituteBy_audits hask) pair.source
    pair.target).audits (s.pushed pair k) hlimits (congrArg (· + 1) hdepth)
  -- The pair is in progress meanwhile, so that no question that it raises puts it on record.
  have hpair := ((resolve_accounts (substituteBy_accounts (evaluate_accounts levels)) pair.source
    pair.target).2 (s.pushed pair k)).entries pair Std.HashSet.mem_insert_self
  have hafter : pair ∉ (resolve (substituteBy (evaluate levels)) pair.source pair.target
      (s.pushed pair k)).2.verdicts.entries := by
    rw [Std.HashMap.mem_iff_isSome_getElem?, hpair, ← Std.HashMap.mem_iff_isSome_getElem?]
    exact hmem
  have hended : AuditsAt (s.pushed pair k) (0 + 1)
      (resolve (substituteBy (evaluate levels)) pair.source pair.target >>=
        settle pair s.stack.size s.lowest s.refusals)
      (resolve (substituteBy ask) pair.source pair.target >>=
        settleWith (.auditing alarm) pair s.stack.size s.lowest s.refusals) :=
    hresolve.bind (settle_audits alarm hafter hproper _ _ _ _)
  rw [Nat.zero_add] at hended
  refine .of_run hended (fun _ _ h => h) rfl (evaluate_of_pushed he) fun events => ?_
  have he' : (s.withEvents events).guard.enter pair =
      (.entered, ((s.withEvents events).pushed pair k).guard) := he
  rw [run_audited alarm ask he']
  rfl

/-- Unfolded beyond the depth that the limits allow, the search that keeps a ledger is the search. -/
theorem evaluate_audits {levels levels' : Nat} (alarm : SearchM Unit)
    (beyond : Pair → SearchM (Option Handle)) (hn : n ≤ limits.depth) (h : limits.depth ≤ levels + n)
    (h' : limits.depth < levels' + n) :
    AuditsAll limits n (evaluate levels) (unfolded (audited alarm) beyond levels') := by
  induction levels generalizing levels' n with
  | zero =>
    refine ⟨evaluate_frames 0, fun pair s hlimits hdepth hmem hproper => ?_⟩
    obtain ⟨levels', rfl⟩ : ∃ k, levels' = k + 1 := ⟨levels' - 1, by omega⟩
    rcases enter_cases s.guard pair with ⟨admission, k, ha, he⟩ | ⟨-, k, he⟩ | ⟨-, hlt, k, he⟩
    · exact letIn_audits_of_refused alarm _ _ he ha
    · exact letIn_audits_of_cycle alarm _ _ he
    · rw [hlimits, hdepth] at hlt
      omega
  | succ levels ih =>
    refine ⟨evaluate_frames (levels + 1), fun pair s hlimits hdepth hmem hproper => ?_⟩
    obtain ⟨levels', rfl⟩ : ∃ k, levels' = k + 1 := ⟨levels' - 1, by omega⟩
    rcases enter_cases s.guard pair with ⟨admission, k, ha, he⟩ | ⟨-, k, he⟩ | ⟨-, hlt, k, he⟩
    · exact letIn_audits_of_refused alarm _ _ he ha
    · exact letIn_audits_of_cycle alarm _ _ he
    · rw [hlimits, hdepth] at hlt
      exact audited_of_entered alarm (ih (by omega) (by omega) (by omega)) hlimits hdepth hmem hproper he

/-- Notes the end of a query. -/
def ended (number : Nat) (answer : Answer) : SearchM Answer := do
  note (.queryEnded number answer.substitution answer.cacheHit answer.depthExceeded)
  return answer

/-- The end of a query that no verdict on record answered. -/
theorem ended_audits (number : Nat) {a : Answer} (h : a.cacheHit = false) (s : Search) :
    AuditsAt s 0 (ended number a) (ended number a) := by
  obtain ⟨substitution, cacheHit, depthExceeded⟩ := a
  obtain rfl : cacheHit = false := h
  have hended : s.verdicts.Reconciles [.queryEnded number substitution false depthExceeded] 0 s.verdicts :=
    .of_nil rfl rfl rfl rfl
  exact .report hended _

/-- A query is answered alike, and with its end noted the ledger accounts for it. -/
theorem checkBy_audits {ask ask' : Pair → SearchM (Option Handle)} (h : AuditsAll limits 0 ask ask')
    (number : Nat) (source target : Option Handle) (hlimits : s.guard.limits = limits)
    (hdepth : s.guard.depth = 0) :
    AuditsAt s 0 (checkBy ask source target >>= ended number)
      (checkBy ask' source target >>= ended number) := by
  cases source with
  | none => exact ended_audits number rfl s
  | some source =>
    cases target with
    | none => exact ended_audits number rfl s
    | some target =>
      rw [checkBy, checkBy]
      split_ifs with heq
      · exact ended_audits number rfl s
      · rw [bind_assoc, bind_assoc]
        refine lookup_audits (fun verdict => ⟨_, _, rfl, rfl, rfl⟩) fun hmem => ?_
        have hask := h.audits ⟨source, target⟩ { s with
          verdicts := { s.verdicts with misses := s.verdicts.misses + 1 } } hlimits hdepth hmem heq
        show AuditsAt _ (1 + 0) _ _
        dsimp only
        rw [bind_assoc, bind_assoc]
        exact .bind hask (.of_run (ended_audits number (a := ⟨_, false, _⟩) rfl _) (fun _ _ h => h) rfl rfl
          fun _ => rfl)

end Search

/-! ## Operations on the universe -/

theorem UniverseM.ownTypeFor_aside (decl : DeclId) (arity : Nat) : Aside (ownTypeFor decl arity) :=
  (Simple.ite (.intern _) (.bind (Simple.structural.mapM (fun _ => .intern _) _) fun _ => .intern _)).aside

namespace Operation

open UniverseM

theorem require_aside {α β : Type} {f : Universe → Except Universe.Error α} {k : α → Declaring β}
    (hk : ∀ a, Aside (k a).run) : Aside (Declaring.require f >>= k).run := by
  have hrun : (Declaring.require f >>= k).run = view f >>= fun r => ExceptT.bindCont k r := rfl
  rw [hrun]
  refine .bind (.view f) fun r => ?_
  cases r with
  | error e => exact .pure _
  | ok a => exact hk a

theorem run_modifyUniverse_aside (f : Universe → Universe) :
    Aside (modifyUniverse f : Declaring Unit).run :=
  .bind (.modifyUniverse f) fun _ => .pure _

theorem declare_aside (d : Declaration) : Aside (Declaring.declare d).run := by
  intro u
  cases hname : u.checkName d.stripped.name with
  | error e =>
    refine ⟨.error e, u, [], by simp, fun j => ?_⟩
    rw [Declaring.run_declare, hname, Journal.noteAll_nil]
  | ok _ =>
    obtain ⟨ty, v, events, hevents, hrun⟩ := ownTypeFor_aside (u.catalog.add d.stripped).1 d.arity
      (u.enrolled d.stripped)
    refine ⟨.ok ty, v.addOwnType ty, .registered (u.catalog.add d.stripped).1 d.stripped.kind
      d.stripped.name :: (events ++ [.declared d.name d.arity ty]), ?_, fun j => ?_⟩
    · simp only [List.forall_mem_cons, List.forall_mem_append]
      exact ⟨rfl, hevents, rfl, by simp⟩
    · rw [Declaring.run_declare, hname]
      dsimp only
      rw [hrun]
      dsimp only
      rw [Journal.note_eq_noteAll, Journal.note_eq_noteAll, Journal.noteAll_noteAll,
        Journal.noteAll_noteAll]
      rfl

/-- No operation on a universe reports on a question. -/
theorem run_aside (op : Operation) : Aside op.run := by
  have hdiscard : ∀ {α : Type} {x : UniverseM α}, Aside x → Aside (discard x) := fun hx =>
    .bind hx fun _ => .pure ()
  cases hop : op.declares with
  | false => exact (simple_run hop).aside
  | true =>
    cases op with
    | declare d => exact hdiscard (declare_aside d)
    | setBase declared base => exact hdiscard (require_aside fun _ => run_modifyUniverse_aside _)
    | addInterface declared interface =>
      refine hdiscard (require_aside fun p => ?_)
      dsimp only
      split_ifs
      · exact .pure _
      · exact run_modifyUniverse_aside _
    | addConstraint param bound => exact hdiscard (require_aside fun _ => run_modifyUniverse_aside _)
    | _ => cases hop

end Operation

/-! ## Uses of a solver -/

namespace Solver

open Search

/-- The same with other events in the journal. -/
def withEvents (s : Solver) (events : Array Event) : Solver :=
  { s with chronicle := s.chronicle.withEvents events }

/-- Answers a query, where `ask` answers what is neither trivial nor on record. -/
def queryBy (ask : Pair → SearchM (Option Handle)) (limits : Limits) (source target : Option Handle) :
    SolverM Answer :=
  queryWith (search limits (checkBy ask source target)) source target

theorem query_eq_queryBy (limits : Limits) (source target : Option Handle) :
    query limits source target =
      queryBy (fun pair => do evaluate (← depthLimit) pair) limits source target :=
  rfl

/-- A use of a solver: a query, or an operation on its universe. -/
inductive Use where
  | query (limits : Limits) (source target : Option Handle)
  | operation (op : Operation)

namespace Use

/-- What a use does to the solver; its answer is left out. -/
def run : Use → Solver → Solver
  | query limits source target, s => (Solver.query limits source target s).2
  | operation op, s => ⟨(op.run s.chronicle).2, s.verdicts⟩

/-- What a use does to the solver, where `ask` answers what is neither trivial nor on record under the
limits that it is given. -/
def runBy (ask : Limits → Pair → SearchM (Option Handle)) : Use → Solver → Solver
  | query limits source target, s => (queryBy (ask limits) limits source target s).2
  | operation op, s => ⟨(op.run s.chronicle).2, s.verdicts⟩

/-- Uses in order. -/
def runAll (uses : List Use) (s : Solver) : Solver :=
  uses.foldl (fun s use => use.run s) s

/-- Uses in order, where `ask` answers what is neither trivial nor on record. -/
def runAllBy (ask : Limits → Pair → SearchM (Option Handle)) (uses : List Use) (s : Solver) : Solver :=
  uses.foldl (fun s use => use.runBy ask s) s

end Use

/-- Two ways to use a solver do the same, and the second keeps a ledger in its journal. -/
def Audits (f f' : Solver → Solver) : Prop :=
  ∀ s, ∃ ledger noted : List Event, s.verdicts.Reconciles ledger 0 (f s).verdicts ∧
    (f s).chronicle.journal.events = s.chronicle.journal.events ++ noted.toArray ∧
    noted.filter (!·.refuses) = ledger.filter (!·.refuses) ∧
    ∀ events, f' (s.withEvents events) = (f s).withEvents (events ++ ledger.toArray)

theorem Audits.comp {f f' g g' : Solver → Solver} (hf : Audits f f') (hg : Audits g g') :
    Audits (fun s => g (f s)) (fun s => g' (f' s)) := by
  intro s
  obtain ⟨ledger, noted, hverdicts, hjournal, habridged, hrun⟩ := hf s
  obtain ⟨ledger', noted', hverdicts', hjournal', habridged', hrun'⟩ := hg (f s)
  refine ⟨ledger ++ ledger', noted ++ noted', hverdicts.append hverdicts', ?_, ?_, fun events => ?_⟩
  · rw [hjournal', hjournal, Array.append_assoc, List.append_toArray noted noted']
  · rw [List.filter_append, List.filter_append, habridged, habridged']
  · dsimp only
    rw [hrun, hrun', Array.append_assoc, List.append_toArray ledger ledger']

theorem run_queryBy (ask : Pair → SearchM (Option Handle)) (limits : Limits) (source target : Option Handle)
    (s : Solver) : (queryBy ask limits source target s).2 =
      ((checkBy ask source target >>= ended (s.chronicle.journal.queries + 1))
        (.start (s.asked source target) limits)).2.solver :=
  rfl

/-- Queries are answered alike if the questions are, and the ledger has their beginnings and ends. -/
theorem queryBy_audits {ask ask' : Pair → SearchM (Option Handle)} {limits : Limits}
    (h : AuditsAll limits 0 ask ask') (source target : Option Handle) :
    Audits (fun s => (queryBy ask limits source target s).2)
      (fun s => (queryBy ask' limits source target s).2) := by
  intro s
  obtain ⟨ledger, noted, hbooked, hrun⟩ := checkBy_audits (s := .start (s.asked source target) limits) h
    (s.chronicle.journal.queries + 1) source target rfl rfl
  have hstarted : s.verdicts.Reconciles
      [.queryStarted (s.chronicle.journal.queries + 1) source target] 0 s.verdicts :=
    .of_nil rfl rfl rfl rfl
  refine ⟨.queryStarted (s.chronicle.journal.queries + 1) source target :: ledger,
    .queryStarted (s.chronicle.journal.queries + 1) source target :: noted,
    hstarted.append hbooked.verdicts, ?_, ?_, fun events => ?_⟩
  · dsimp only
    rw [run_queryBy, ← List.push_append_toArray]
    exact congrArg Journal.events hbooked.journal
  · exact congrArg (_ :: ·) hbooked.abridged
  · dsimp only
    rw [run_queryBy, run_queryBy, ← List.push_append_toArray]
    exact congrArg (fun r : Answer × Search => r.2.solver) (hrun (events.push _))

section Uses

variable (alarm : SearchM Unit) (beyond : Pair → SearchM (Option Handle)) (more : Nat)

/-- The search for a query is the same with a ledger, and with an alarm for pairs that are recorded
twice. -/
theorem evaluate_auditsAll (limits : Limits) :
    AuditsAll limits 0 (fun pair => do evaluate (← depthLimit) pair)
      (unfolded (audited alarm) beyond (limits.depth + more + 1)) := by
  have heval := evaluate_audits alarm beyond (Nat.zero_le _) (Nat.le_refl limits.depth)
    (Nat.lt_succ_of_le (Nat.le_add_right limits.depth more))
  refine ⟨fun pair s => evaluate_frames _ pair s, fun pair s hlimits hdepth hmem hproper => ?_⟩
  refine .of_run (heval.audits pair s hlimits hdepth hmem hproper) (fun _ _ h => h) rfl ?_ fun _ => rfl
  rw [← hlimits]
  rfl

theorem Use.run_audits (use : Use) :
    Audits use.run (use.runBy fun limits => unfolded (audited alarm) beyond (limits.depth + more + 1)) := by
  cases use with
  | query limits source target =>
    have hquery := queryBy_audits (evaluate_auditsAll alarm beyond more limits) source target
    rw [← query_eq_queryBy] at hquery
    exact hquery
  | operation op =>
    intro s
    obtain ⟨a, v, noted, hnoted, hrun⟩ := op.run_aside s.univ
    have hplain : op.run s.chronicle = _ := hrun s.chronicle.journal
    have haudited : ∀ events, op.run (s.chronicle.withEvents events) = _ := fun events =>
      hrun { s.chronicle.journal with events }
    refine ⟨noted, noted, .asides hnoted, ?_, rfl, fun events => ?_⟩
    · rw [Use.run, hplain]
      rfl
    · show Solver.mk (op.run (s.chronicle.withEvents events)).2 s.verdicts = _
      rw [haudited, Use.run, hplain]
      rfl

theorem Use.runAll_audits (uses : List Use) :
    Audits (runAll uses)
      (runAllBy (fun limits => unfolded (audited alarm) beyond (limits.depth + more + 1)) uses) := by
  induction uses with
  | nil =>
    exact fun s => ⟨[], [], .asides (by simp), by simp [runAll], rfl,
      fun events => by simp [runAllBy, runAll]⟩
  | cons use uses ih => exact (use.run_audits alarm beyond more).comp ih

end Uses

/-- What is on record stays, however a solver is used. -/
theorem Use.getElem?_runAll (uses : List Use) {s : Solver} {pair : Pair} {verdict : Verdict}
    (h : s.verdicts.entries[pair]? = some verdict) :
    (runAll uses s).verdicts.entries[pair]? = some verdict := by
  obtain ⟨ledger, noted, hverdicts, -⟩ := runAll_audits (pure ()) (fun _ => pure none) 0 uses s
  exact hverdicts.getElem?_eq_some h

/-- Whatever queries are asked of a solver that is new or whose verdicts were just cleared, under any limits
and with any operations on its universe in between: the verdicts on record are those that the journal
says were recorded since, put there in this order, each on another pair of two different types. They stay.
Look-ups that found a verdict are those that the journal reports, for nested questions and for queries.
The search that keeps a ledger, writes over what is on record and raises an alarm where it does, is the
same search; and according to the ledger each look-up that found none led to a verdict, to a refusal, to
an assumption or to a verdict withheld. -/
theorem verdicts_add_up (c : Chronicle) (uses : List Use) :
    let s := Use.runAll uses ⟨c, {}⟩
    ∃ noted : List Event,
      s.chronicle.journal.events = c.journal.events ++ noted.toArray ∧
      s.verdicts.entries = .ofList (verdictsOf noted) ∧
      ((verdictsOf noted).map Prod.fst).Nodup ∧
      s.verdicts.size = (verdictsOf noted).length ∧
      (∀ r ∈ verdictsOf noted, r.1.source ≠ r.1.target ∧ s.verdicts.entries[r.1]? = some r.2) ∧
      (∀ (later : List Use) (pair : Pair) (verdict : Verdict), s.verdicts.entries[pair]? = some verdict →
        (Use.runAll later s).verdicts.entries[pair]? = some verdict) ∧
      s.verdicts.hits = noted.countP Event.reuses ∧
      s.verdicts.size ≤ s.verdicts.misses ∧
      ∀ alarm beyond more, ∃ ledger : List Event,
        Use.runAllBy (fun limits => unfolded (audited alarm) beyond (limits.depth + more + 1)) uses ⟨c, {}⟩ =
          s.withEvents (c.journal.events ++ ledger.toArray) ∧
        ledger.filter (!·.refuses) = noted.filter (!·.refuses) ∧
        s.verdicts.misses = s.verdicts.size + ledger.countP Event.refuses +
          ledger.countP Event.assumes + ledger.countP Event.withholds := by
  intro s
  have haudits : ∀ alarm beyond more, _ := fun alarm beyond more =>
    Use.runAll_audits alarm beyond more uses ⟨c, {}⟩
  obtain ⟨ledger, noted, hverdicts, hjournal, habridged, -⟩ := haudits (pure ()) (fun _ => pure none) 0
  have hrecorded := verdictsOf_eq_of_abridged habridged
  refine ⟨noted, hjournal, ?_, hrecorded ▸ hverdicts.nodup, hrecorded ▸ hverdicts.size_of_new,
    fun r hr => ?_, fun later pair verdict => Use.getElem?_runAll later, ?_, ?_,
    fun alarm beyond more => ?_⟩
  · rw [hrecorded, Std.HashMap.ofList_eq_insertMany_empty]
    exact hverdicts.entries
  · rw [hrecorded] at hr
    exact ⟨hverdicts.proper r hr, hverdicts.getElem?_of_mem hr⟩
  · rw [countP_eq_of_abridged habridged Event.refuses_eq_false_of_reuses]
    simpa using hverdicts.hits
  · have hmisses : s.verdicts.misses = s.verdicts.size + _ + _ + _ := hverdicts.misses_of_new
    omega
  · -- What the search notes does not depend on the alarm, so that each ledger is about the same notes.
    obtain ⟨ledger', noted', hverdicts', hjournal', habridged', hrun⟩ := haudits alarm beyond more
    obtain rfl : noted' = noted :=
      List.toArray_inj ((Array.append_right_inj _).1 (hjournal'.symm.trans hjournal))
    exact ⟨ledger', hrun c.journal.events, habridged'.symm, hverdicts'.misses_of_new⟩

end Solver

end Subtyping
