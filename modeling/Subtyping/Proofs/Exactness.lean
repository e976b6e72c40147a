import Subtyping.Proofs.Queries

/-!
# Verdicts are exact

However a solver has been used, a verdict on record says that there is a substitution exactly for
pairs of the substitution relation, and so did every verdict that was recorded and cleared since. A
query that no limit refused is answered yes exactly for pairs of the relation, and a yes is right even
if a limit refused something on the way (`Solver.Served.verdicts_exact`).
-/

namespace Subtyping

/-- The substitution relation on the types of a universe. -/
def Universe.Sub (u : Universe) (source target : Handle) : Prop :=
  u.signature.Sub (u.typeAt source) (u.typeAt target)

theorem Universe.Decides.isSome_iff {u : Universe} {pair : Pair} {verdict : Verdict}
    (h : u.Decides pair verdict) :
    verdict.substitution?.isSome ↔ u.Sub pair.source pair.target := by
  rw [isSome_of_rel h.2.2, Signature.isSome_res_iff]
  rfl

theorem Search.Reply.isRelated_iff {S : Signature} {u : Universe} {a b : Ty} {answer : Answer}
    (h : Search.Reply S u a b answer) (hexc : answer.depthExceeded = false) :
    answer.isRelated ↔ S.Sub a b := by
  rw [Answer.isRelated, Universe.isSome_of_rel (h.resolved hexc), Signature.isSome_res_iff]

namespace Solver

theorem Served.verdicts_exact {c : Chronicle} {s : Solver} (hc : c.univ.Built) (hs : s.Served c) :
    s.univ.signature.Describes s.chronicle ∧
    (∀ (pair : Pair) (verdict : Verdict), s.verdicts.entries[pair]? = some verdict →
      s.univ.contains pair.source ∧ s.univ.contains pair.target ∧
        ((∃ ty, verdict = .substitute ty) ↔ s.univ.Sub pair.source pair.target)) ∧
    (∀ (pair : Pair) (r : Option Handle), .verdict pair r ∈ s.chronicle.journal.events →
      .verdict pair r ∈ c.journal.events ∨ (r.isSome ↔ s.univ.Sub pair.source pair.target)) ∧
    ∀ (limits : Limits) (source target : Handle), s.univ.contains source → s.univ.contains target →
      ((Solver.query limits (some source) (some target) s).1.isRelated → s.univ.Sub source target) ∧
        ((Solver.query limits (some source) (some target) s).1.depthExceeded = false →
          ((Solver.query limits (some source) (some target) s).1.isRelated ↔
            s.univ.Sub source target)) := by
  obtain ⟨hexact, -⟩ := hs.exact hc.valid
  refine ⟨hexact.consistent.describes, fun pair verdict h => ?_, fun pair r h => ?_,
    fun limits source target hsource htarget => ?_⟩
  · have hdec := hexact.entries h
    refine ⟨hdec.1, hdec.2.1, Iff.trans ?_ hdec.isSome_iff⟩
    cases verdict <;> simp [Verdict.substitution?]
  · refine (hs.decides_of_noted hc.valid h).imp_right fun hdec => Iff.trans ?_ hdec.isSome_iff
    cases r <;> simp [Verdict.ofSubstitution, Verdict.substitution?]
  · obtain ⟨-, hreply⟩ := hexact.query limits (Universe.reads_typeAt hsource)
      (Universe.reads_typeAt htarget)
    rw [← hexact.signature] at hreply
    exact ⟨hreply.related, hreply.isRelated_iff⟩

/-- In the universe of the self-bounded interface, `D<X>` can stand for the open `D<>`, since the
bound of its parameter leads back to the question, and `X` cannot stand for `D<X>`. -/
theorem Served.verdicts_exact_selfBounded :
    Chronicle.selfBounded.univ.Built ∧ Served .selfBounded ⟨.selfBounded, {}⟩ ∧
      Chronicle.selfBounded.univ.Sub ⟨4⟩ ⟨2⟩ ∧ ¬ Chronicle.selfBounded.univ.Sub ⟨3⟩ ⟨4⟩ := by
  have hexact := verdicts_exact Chronicle.built_selfBounded .new
  have hquery := hexact.2.2.2 .query
  refine ⟨Chronicle.built_selfBounded, .new, ?_, ?_⟩
  · exact (hquery ⟨4⟩ ⟨2⟩ (by cbv) (by cbv)).1 (by cbv)
  · intro h
    have hyes := ((hquery ⟨3⟩ ⟨4⟩ (by cbv) (by cbv)).2 (by cbv)).2 h
    have hno : (Solver.query .query (some ⟨3⟩) (some ⟨4⟩) ⟨.selfBounded, {}⟩).1.isRelated = false := by
      cbv
    exact Bool.false_ne_true (hno.symm.trans hyes)

end Solver

end Subtyping
