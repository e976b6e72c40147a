import Subtyping.Proofs.Work

/-!
# The journal of a universe

Whenever the work on a pair ends, the journal says so, with the verdict if it is recorded. Work on the
universe itself writes no such event: simple work is quiet (`UniverseM.Simple.quiet`). Nor does it report
on questions in any other way, or depend on what the journal says (`UniverseM.Simple.aside`).
-/

namespace Subtyping

/-- Adds events at the end, in order. -/
def Journal.noteAll (j : Journal) (events : List Event) : Journal :=
  { j with events := j.events ++ events.toArray }

@[simp]
theorem Journal.noteAll_nil (j : Journal) : j.noteAll [] = j := by
  simp [noteAll]

@[simp]
theorem Journal.noteAll_noteAll (j : Journal) (events later : List Event) :
    (j.noteAll events).noteAll later = j.noteAll (events ++ later) := by
  simp [noteAll]

theorem Journal.note_eq_noteAll (j : Journal) (e : Event) : j.note e = j.noteAll [e] := by
  simp [note, noteAll]

namespace UniverseM

variable {α β : Type}

/-- Work that notes no verdict. -/
def Quiet (x : UniverseM α) : Prop :=
  ∀ c pair r, Event.verdict pair r ∈ (x c).2.journal.events →
    Event.verdict pair r ∈ c.journal.events

theorem Quiet.note {e : Event} (he : ∀ pair r, e ≠ .verdict pair r) : Quiet (note e) := by
  intro c pair r h
  rcases Array.mem_push.1 h with h | h
  · exact h
  · exact absurd h.symm (he pair r)

theorem Simple.quiet {x : UniverseM α} (hx : Simple x) : Quiet x := by
  induction hx with
  | pure => exact fun _ _ _ h => h
  | bind _ _ ih ihf => exact fun c pair r h => ih c pair r (ihf _ _ pair r h)
  | view => exact fun _ _ _ h => h
  | note he =>
    refine .note fun pair r h => ?_
    rw [h] at he
    cases he
  | intern => exact fun _ _ _ h => h
  | record => exact fun _ _ _ h => h

/-- Work that does the same whatever the journal says, and adds to it no report on a question. -/
def Aside (x : UniverseM α) : Prop :=
  ∀ u, ∃ a v events, (∀ e ∈ events, e.reports = false) ∧ ∀ j, x ⟨u, j⟩ = (a, ⟨v, j.noteAll events⟩)

namespace Aside

/-- Work that leaves the journal alone. -/
theorem of_wordless {x : UniverseM α} (h : ∀ u, ∃ a v, ∀ j, x ⟨u, j⟩ = (a, ⟨v, j⟩)) : Aside x := by
  intro u
  obtain ⟨a, v, hrun⟩ := h u
  exact ⟨a, v, [], by simp, fun j => by rw [hrun, Journal.noteAll_nil]⟩

theorem pure (a : α) : Aside (pure a) :=
  .of_wordless fun _ => ⟨_, _, fun _ => rfl⟩

theorem view (f : Universe → α) : Aside (view f) :=
  .of_wordless fun _ => ⟨_, _, fun _ => rfl⟩

theorem intern (shape : Shape) : Aside (intern shape) :=
  .of_wordless fun _ => ⟨_, _, fun _ => rfl⟩

theorem modifyUniverse (f : Universe → Universe) : Aside (modifyUniverse f) :=
  .of_wordless fun _ => ⟨_, _, fun _ => rfl⟩

theorem note {e : Event} (he : e.reports = false) : Aside (note e) := by
  refine fun u => ⟨(), u, [e], by simpa using he, fun j => ?_⟩
  rw [← Journal.note_eq_noteAll]
  rfl

theorem bind {x : UniverseM α} {f : α → UniverseM β} (hx : Aside x) (hf : ∀ a, Aside (f a)) :
    Aside (x >>= f) := by
  intro u
  obtain ⟨a, v, events, hevents, hrun⟩ := hx u
  obtain ⟨b, w, later, hlater, hrun'⟩ := hf a v
  refine ⟨b, w, events ++ later, fun e he => ?_, fun j => ?_⟩
  · exact (List.mem_append.1 he).elim (hevents e) (hlater e)
  · show f (x ⟨u, j⟩).1 (x ⟨u, j⟩).2 = _
    rw [hrun, hrun', Journal.noteAll_noteAll]

end Aside

theorem Simple.aside {x : UniverseM α} (hx : Simple x) : Aside x := by
  induction hx with
  | pure a => exact .pure a
  | bind _ _ ih ihf => exact .bind ih ihf
  | view f => exact .view f
  | note he => exact .note he
  | intern shape => exact .intern shape
  | record ty closure => exact .modifyUniverse _

end UniverseM

end Subtyping
