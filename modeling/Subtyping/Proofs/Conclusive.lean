import Subtyping.Proofs.FailSafe
import Subtyping.Proofs.SearchCarries
import Subtyping.Proofs.Towers

/-!
# Answers without a flag

An answer that is not flagged is on record from then on, so that asking again gives the same answer at
once, and a flagged answer is not on record (`Search.entries_check`). This needs that every refusal
shows: a limit that refuses a question sets the flag, and a walk along a base chain that is cut off does
not, so base chains must end within the reach of a walk (`Universe.WithinReach`). Then a negative answer
without a flag also says that the target is not reached by going up
(`Solver.Served.unflagged_conclusive`). From the top of a tower that is higher, the root is reached, and
yet the answer is negative, without a flag and on record (`Solver.exists_unflagged_inconclusive`).
-/

namespace Subtyping

open Relation

namespace Search

open UniverseM

variable {α β : Type} {s s' s'' : Search} {pair : Pair} {levels : Nat}

/-! ## Pairs in progress -/

/-- Verdicts on pairs in progress stay as they are, and a limit that was exceeded was counted. -/
structure Accounted (s s' : Search) : Prop where
  entries : ∀ p ∈ s.guard.visiting, s'.verdicts.entries[p]? = s.verdicts.entries[p]?
  refused : s'.guard.exceeded → s.guard.exceeded ∨ s.refusals < s'.refusals

theorem Accounted.trans (hf : s.Framed s') (hf' : s'.Framed s'') (h : s.Accounted s')
    (h' : s'.Accounted s'') : s.Accounted s'' := by
  refine ⟨fun p hp => ?_, fun hexc => ?_⟩
  · rw [h'.entries p ((hf.visiting p).2 hp), h.entries p hp]
  · rcases h'.refused hexc with hexc | hlt
    · exact (h.refused hexc).imp_right fun hlt => Nat.lt_of_lt_of_le hlt hf'.refusals
    · exact Or.inr (Nat.lt_of_le_of_lt hf.refusals hlt)

/-- Work accounts for refusals if it does so from every state. -/
def Accounts (x : SearchM α) : Prop :=
  Frames x ∧ ∀ s : Search, s.Accounted (x s).2

namespace Accounts

theorem pure (a : α) : Accounts (pure a) :=
  ⟨.pure a, fun _ => ⟨fun _ _ => rfl, Or.inl⟩⟩

theorem bind {x : SearchM α} {f : α → SearchM β} (hx : Accounts x) (hf : ∀ a, Accounts (f a)) :
    Accounts (x >>= f) :=
  ⟨.bind hx.1 fun a => (hf a).1, fun s => .trans (hx.1 s) ((hf _).1 _) (hx.2 s) ((hf _).2 _)⟩

theorem lift {x : UniverseM α} (hx : Quiet x) : Accounts (liftM x : SearchM α) :=
  ⟨.lift hx, fun _ => ⟨fun _ _ => rfl, Or.inl⟩⟩

theorem ite {c : Prop} [Decidable c] {x y : SearchM α} (hx : Accounts x) (hy : Accounts y) :
    Accounts (if c then x else y) := by
  split
  · exact hx
  · exact hy

theorem lookup (pair : Pair) : Accounts (lookup pair) :=
  ⟨lookup_frames pair, fun s =>
    ⟨fun p _ => congrArg (·[p]?) (s.verdicts.entries_lookup pair), Or.inl⟩⟩

end Accounts

theorem congruence_accounts : Congruence SearchM SearchM fun x _ => Accounts x where
  pure := .pure
  bind := .bind
  lift hx := .lift hx.quiet
  refuse := ⟨refuse_frames, fun _ => ⟨fun _ _ => rfl, Or.inl⟩⟩

theorem resolve_accounts {nested : Nested SearchM} (h : ∀ source target, Accounts (nested source target))
    (source target : Handle) : Accounts (resolve nested source target) :=
  congruence_accounts.resolve_of_forall h source target

theorem substituteBy_accounts {evaluate : Pair → SearchM (Option Handle)}
    (he : ∀ pair, Accounts (evaluate pair)) (source target : Handle) :
    Accounts (substituteBy evaluate source target) := by
  refine .ite (.pure _) (.bind (.lookup _) fun found => ?_)
  cases found with
  | none => exact he _
  | some verdict => exact .bind (.lift (.note nofun)) fun _ => .pure _

/-- A question leaves the verdicts on pairs in progress alone: it is not about one of them unless it is
a cycle. -/
theorem evaluate_accounts (levels : Nat) (pair : Pair) : Accounts (evaluate levels pair) := by
  induction levels generalizing pair with
  | zero =>
    refine ⟨evaluate_frames 0 pair, fun s => ?_⟩
    rcases enter_cases s.guard pair with ⟨_, n, hadm, h⟩ | ⟨-, n, h⟩ | ⟨-, -, n, h⟩
    · obtain ⟨j, hj⟩ := evaluate_of_refused 0 h hadm
      rw [hj]
      exact ⟨fun _ _ => rfl, fun _ => Or.inr (Nat.lt_succ_self _)⟩
    · obtain ⟨j, hj⟩ := evaluate_of_cycle 0 h
      rw [hj]
      exact ⟨fun _ _ => rfl, Or.inl⟩
    · rw [evaluate_zero_of_entered h]
      refine ⟨fun _ _ => rfl, fun hexc => Or.inl ?_⟩
      change (Guard.leave _ pair).exceeded = true at hexc
      rwa [exceeded_leave] at hexc
  | succ levels ih =>
    refine ⟨evaluate_frames (levels + 1) pair, fun s => ?_⟩
    rcases enter_cases s.guard pair with ⟨_, n, hadm, h⟩ | ⟨-, n, h⟩ | ⟨hmem, -, n, h⟩
    · obtain ⟨j, hj⟩ := evaluate_of_refused (levels + 1) h hadm
      rw [hj]
      exact ⟨fun _ _ => rfl, fun _ => Or.inr (Nat.lt_succ_self _)⟩
    · obtain ⟨j, hj⟩ := evaluate_of_cycle (levels + 1) h
      rw [hj]
      exact ⟨fun _ _ => rfl, Or.inl⟩
    · have hresolve : (s.pushed pair n).Accounted _ := (resolve_accounts (substituteBy_accounts ih)
        pair.source pair.target).2 (s.pushed pair n)
      rw [evaluate_of_pushed h]
      refine ⟨fun p hp => ?_, fun hexc => ?_⟩
      · have hne : p ≠ pair := fun he => hmem (he ▸ hp)
        rw [entries_settle_of_ne _ _ _ _ _ _ hne]
        exact hresolve.entries p (Std.HashSet.mem_insert.2 (Or.inr hp))
      · rw [exceeded_settle] at hexc
        rw [refusals_settle]
        exact hresolve.refused hexc

/-! ## The outermost pair -/

variable {S : Signature} {a b : Ty} {source target : Handle}

/-- An outermost question that no limit refused anything is recorded with its answer. -/
theorem entries_evaluate_of_unexceeded (hreach : S.WithinReach) (hs : Passing S (fun _ => True) s)
    (hstack : s.stack = #[]) (hvisiting : pair ∉ s.guard.visiting)
    (hroom : s.guard.limits.depth ≤ levels + s.guard.depth) (ha : s.univ.Reads pair.source a)
    (hb : s.univ.Reads pair.target b) (hexc : (evaluate levels pair s).2.guard.exceeded = false) :
    (evaluate levels pair s).2.verdicts.entries[pair]? =
      some (.ofSubstitution (evaluate levels pair s).1) := by
  rcases enter_cases s.guard pair with ⟨_, n, hadm, h⟩ | ⟨hmem, -⟩ | ⟨-, hdepth, n, h⟩
  · obtain ⟨j, hj⟩ := evaluate_of_refused levels h hadm
    rw [hj] at hexc
    cases hexc
  · exact absurd hmem hvisiting
  · obtain ⟨m, rfl⟩ : ∃ m, levels = m + 1 := ⟨levels - 1, by omega⟩
    have hpush : Passing S (fun _ => True) (s.pushed pair n) :=
      ⟨hs.consistent, hs.owned, hs.signature, hs.entries⟩
    obtain ⟨hp, -⟩ := resolve_keeps .trivial (substituteBy_carries (evaluate_carries .trivial m))
      hpush ha hb
    rw [evaluate_of_pushed h, exceeded_settle] at hexc
    rw [evaluate_of_pushed h]
    -- nothing was refused, and there is no pair further out to lean on
    have hrefusals := hp.tidy hreach hexc
    generalize resolve (m := SearchM) _ _ _ _ = x at hrefusals ⊢
    have hprov : x.2.provisional s.stack.size = false := by
      rw [provisional, hstack]
      cases x.2.lowest <;> simp
    have hbefore : (s.pushed pair n).refusals = s.refusals := rfl
    rw [← hbefore, ← hrefusals]
    exact entries_settle_self x.2 pair s.stack.size s.lowest x.1 hprov

/-- An outermost question that a limit refused something is not recorded. -/
theorem entries_evaluate_of_exceeded (hvisiting : pair ∉ s.guard.visiting)
    (hroom : s.guard.limits.depth ≤ levels + s.guard.depth) (hbefore : s.guard.exceeded = false)
    (hnone : s.verdicts.entries[pair]? = none)
    (hexc : (evaluate levels pair s).2.guard.exceeded = true) :
    (evaluate levels pair s).2.verdicts.entries[pair]? = none := by
  rcases enter_cases s.guard pair with ⟨_, n, hadm, h⟩ | ⟨hmem, -⟩ | ⟨-, hdepth, n, h⟩
  · obtain ⟨j, hj⟩ := evaluate_of_refused levels h hadm
    rw [hj]
    exact hnone
  · exact absurd hmem hvisiting
  · obtain ⟨m, rfl⟩ : ∃ m, levels = m + 1 := ⟨levels - 1, by omega⟩
    have hresolve : (s.pushed pair n).Accounted _ := (resolve_accounts (substituteBy_accounts
      (evaluate_accounts m)) pair.source pair.target).2 (s.pushed pair n)
    rw [evaluate_of_pushed h, exceeded_settle] at hexc
    rw [evaluate_of_pushed h]
    have hlt : s.refusals < _ := (hresolve.refused hexc).resolve_left (by simp [pushed, hbefore])
    have hentry := hresolve.entries pair Std.HashSet.mem_insert_self
    generalize resolve (m := SearchM) _ _ _ _ = x at hlt hentry ⊢
    obtain ⟨j, hj⟩ := @settle_of_withheld x.2 pair s.stack.size s.refusals s.lowest x.1
      (Or.inr (Nat.ne_of_gt hlt))
    rw [hj]
    exact hentry.trans hnone

/-- Looking a pair up changes the counts alone. -/
theorem run_lookup (s : Search) (pair : Pair) : lookup pair s =
    (s.verdicts.entries[pair]?, { s with verdicts := (s.verdicts.lookup pair).2 }) := by
  rw [← Verdicts.lookup_fst]
  rfl

/-- A query on a pair that is on record is answered from the record. -/
theorem check_of_recorded {verdict : Verdict} (hne : source ≠ target)
    (h : s.verdicts.entries[(⟨source, target⟩ : Pair)]? = some verdict) :
    check (some source) (some target) s = (⟨verdict.substitution?, true, false⟩,
      { s with verdicts := (s.verdicts.lookup ⟨source, target⟩).2 }) := by
  rw [check_some, if_neg hne, run_bind, run_lookup, h]
  rfl

/-- Any other query on two different types is a question of its own. -/
theorem check_of_unrecorded (hne : source ≠ target)
    (h : s.verdicts.entries[(⟨source, target⟩ : Pair)]? = none) :
    check (some source) (some target) s =
      let r := evaluate s.guard.limits.depth ⟨source, target⟩
        { s with verdicts := (s.verdicts.lookup ⟨source, target⟩).2 }
      (⟨r.1, false, r.2.guard.exceeded⟩, r.2) := by
  rw [check_some, if_neg hne, run_bind, run_lookup, h]
  rfl

/-- The answer to a query is on record afterwards, unless it is flagged. -/
theorem entries_check (hreach : S.WithinReach) (hs : Passing S (fun _ => True) s)
    (hstack : s.stack = #[]) (hguard : s.guard = .new s.guard.limits)
    (ha : s.univ.Reads source a) (hb : s.univ.Reads target b) (hne : source ≠ target) :
    (check (some source) (some target) s).2.verdicts.entries[(⟨source, target⟩ : Pair)]? =
      if (check (some source) (some target) s).1.depthExceeded then none
      else some (.ofSubstitution (check (some source) (some target) s).1.substitution) := by
  cases hfound : s.verdicts.entries[(⟨source, target⟩ : Pair)]? with
  | some verdict =>
    rw [check_of_recorded hne hfound, Verdicts.entries_lookup, hfound]
    simp
  | none =>
    obtain ⟨hp, -⟩ := Keeps.lookup hs ⟨source, target⟩
    rw [check_of_unrecorded hne hfound]
    set t : Search := { s with verdicts := (s.verdicts.lookup ⟨source, target⟩).2 } with ht
    have hvisiting : (⟨source, target⟩ : Pair) ∉ t.guard.visiting := by
      rw [ht, hguard]
      exact Std.HashSet.not_mem_empty
    have hexc : t.guard.exceeded = false := by rw [ht, hguard]; rfl
    have hroom : t.guard.limits.depth ≤ s.guard.limits.depth + t.guard.depth :=
      Nat.le_add_right _ _
    dsimp only
    split_ifs with hflag
    · refine entries_evaluate_of_exceeded hvisiting hroom hexc ?_ hflag
      rw [ht, Verdicts.entries_lookup, hfound]
    · exact entries_evaluate_of_unexceeded hreach hp.after hstack hvisiting hroom
        (hp.grows.reads ha) (hp.grows.reads hb) (Bool.not_eq_true _ ▸ hflag)

/-! ## Targets without arguments -/

/-- A question on a target without arguments raises no other, and nothing in it can be refused. -/
theorem resolve_of_not_generic {nested : Nested SearchM} (h : s.univ.isGeneric target = false) :
    ∃ chronicle, (resolve nested source target s).2 = { s with chronicle } := by
  have hresolve : resolve nested source target s =
      (resolveClosed source target : SearchM (Option Handle)) s := by
    show (if s.univ.isGeneric target then _ else _ : SearchM (Option Handle)) s = _
    rw [h]
    rfl
  rw [hresolve, resolveClosed]
  show ∃ _, ((if s.univ.isOpen source then _ else _ : SearchM (Option Handle)) s).2 = _
  split_ifs
  · exact ⟨_, rfl⟩
  · show ∃ _,
      ((if (isAssignable source target s.chronicle).1 then _ else _ : SearchM (Option Handle)) _).2 = _
    split_ifs <;> exact ⟨_, rfl⟩

/-- The first question of a search is let in, unless the limits let nothing in. -/
theorem enter_of_new (hguard : s.guard = .new s.guard.limits) (hdepth : 0 < s.guard.limits.depth)
    (hsteps : 0 < s.guard.limits.steps) :
    s.guard.enter pair = (.entered, (s.pushed pair 1).guard) := by
  rw [pushed, hguard]
  simp [Guard.enter, Guard.new, Limits.counterCap, Nat.not_lt.2 hsteps, Nat.not_le.2 hdepth]

/-- So as the first question of a search it is answered without a flag, and the answer is recorded. -/
theorem evaluate_of_not_generic (h : s.univ.isGeneric pair.target = false)
    (hguard : s.guard = .new s.guard.limits) (hdepth : 0 < s.guard.limits.depth)
    (hsteps : 0 < s.guard.limits.steps) :
    (evaluate (levels + 1) pair s).2.guard.exceeded = false ∧
      (evaluate (levels + 1) pair s).2.verdicts.entries[pair]? =
        some (.ofSubstitution (evaluate (levels + 1) pair s).1) := by
  obtain ⟨chronicle, hr⟩ := @resolve_of_not_generic (s.pushed pair 1) pair.source pair.target
    (substituteBy (evaluate levels)) h
  rw [evaluate_of_pushed (enter_of_new hguard hdepth hsteps), exceeded_settle]
  refine ⟨?_, ?_⟩
  · rw [hr]
    show s.guard.exceeded = false
    rw [hguard]
    rfl
  · have hrefusals : s.refusals = (resolve (substituteBy (evaluate levels)) pair.source pair.target
        (s.pushed pair 1)).2.refusals := by
      rw [hr]
      rfl
    rw [hrefusals]
    refine entries_settle_self _ _ _ _ _ ?_
    rw [hr]
    rfl

end Search

namespace Solver

variable {S : Signature} {s : Solver} {source target : Handle}

/-- The types of exact verdicts are known. -/
theorem Exact.passing (hs : s.Exact S) (limits : Limits) :
    Search.Passing S (fun _ => True) (.start s limits) := by
  refine ⟨hs.consistent, hs.owned, hs.signature, fun h => ?_⟩
  obtain ⟨hsource, -, hrel⟩ := hs.entries h
  refine ⟨hsource, fun ty hty => ?_⟩
  exact ⟨_, Universe.reads_typeAt (Universe.contains_of_rel hrel ty hty), fun _ => trivial⟩

/-- A query on a pair that is on record is answered from the record, under any limits. -/
theorem query_of_recorded {verdict : Verdict} (hne : source ≠ target)
    (h : s.verdicts.entries[(⟨source, target⟩ : Pair)]? = some verdict) (limits : Limits) :
    (Solver.query limits (some source) (some target) s).1 = ⟨verdict.substitution?, true, false⟩ := by
  obtain ⟨j, e, -, -, hrun⟩ := run_query (some source) (some target) s
  rw [hrun, Search.check_of_recorded hne h]

theorem Exact.entries_query (hs : s.Exact S) (hreach : S.WithinReach)
    (hsource : s.univ.contains source) (htarget : s.univ.contains target) (hne : source ≠ target)
    (limits : Limits) :
    (Solver.query limits (some source) (some target) s).2.verdicts.entries[(⟨source, target⟩ : Pair)]? =
      if (Solver.query limits (some source) (some target) s).1.depthExceeded then none
      else some (.ofSubstitution (Solver.query limits (some source) (some target) s).1.substitution) := by
  obtain ⟨j, e, -, -, hrun⟩ := run_query (some source) (some target) s
  rw [hrun]
  exact Search.entries_check hreach ((hs.journal j).passing limits) rfl rfl
    (Universe.reads_typeAt hsource) (Universe.reads_typeAt htarget) hne

/-- An answer without a flag is on record, so that it is given again at once under any limits, and if it
is negative, the target is not reached from the source by going up. A flagged answer is not on record,
and whatever is on record is exact. -/
theorem Served.unflagged_conclusive {c : Chronicle} (hc : c.univ.Built) (hreach : c.univ.WithinReach)
    (hs : s.Served c) (source target : Handle) (hsource : s.univ.contains source)
    (htarget : s.univ.contains target) (hne : source ≠ target) (limits : Limits) :
    let r := Solver.query limits (some source) (some target) s
    (r.1.depthExceeded = false →
      r.2.verdicts.entries[(⟨source, target⟩ : Pair)]? = some (.ofSubstitution r.1.substitution) ∧
      (∀ limits', (Solver.query limits' (some source) (some target) r.2).1 =
        ⟨r.1.substitution, true, false⟩) ∧
      (s.univ.isOpen source = false → (s.univ.kind? target).isSome →
        ReflTransGen c.univ.signature.Above (s.univ.typeAt source) (s.univ.typeAt target) →
          r.1.isRelated)) ∧
    (r.1.depthExceeded = true → r.2.verdicts.entries[(⟨source, target⟩ : Pair)]? = none) ∧
    ∀ pair verdict, r.2.verdicts.entries[pair]? = some verdict → r.2.univ.Decides pair verdict := by
  intro r
  obtain ⟨hexact, hgrows⟩ := hs.exact hc.valid
  have hwithin := hc.withinReach hreach
  have ha := Universe.reads_typeAt hsource
  have hb := Universe.reads_typeAt htarget
  obtain ⟨hadv, hreply⟩ := hexact.query limits ha hb
  have hentries := hexact.entries_query hwithin hsource htarget hne limits
  refine ⟨fun hexc => ?_, fun hexc => ?_, fun pair verdict h => hadv.exact.entries h⟩
  · rw [if_neg (by rw [hexc]; exact Bool.false_ne_true)] at hentries
    refine ⟨hentries, fun limits' => ?_, fun hclosed hkind hreaches => ?_⟩
    · rw [query_of_recorded hne hentries, Verdict.substitution?_ofSubstitution]
    · rw [hexact.consistent.kind?_of_reads hb, hexact.signature] at hkind
      rw [hexact.consistent.isOpen_of_reads ha] at hclosed
      have hconcrete := hexact.consistent.concrete_of_reads ha hclosed
      rw [hgrows.arity] at hconcrete
      exact (hreply.isRelated_iff hexc).2 (hc.scoped.sub_of_reaches hwithin hc.wellKinded
        hc.valid.consistent.exists_ranking hclosed hconcrete hkind hreaches)
  · rw [if_pos hexc] at hentries
    exact hentries

/-- Here `X` and `D<D<X>>` are asked for: the answer is yes, and is given again under limits that let
nothing in. -/
theorem Served.unflagged_conclusive_selfBounded :
    Chronicle.selfBounded.univ.WithinReach ∧
    let r := Solver.query .query (some ⟨3⟩) (some ⟨5⟩) ⟨.selfBounded, {}⟩
    r.1.depthExceeded = false ∧ r.1.isRelated ∧
      ∀ limits, (Solver.query limits (some ⟨3⟩) (some ⟨5⟩) r.2).1 = ⟨r.1.substitution, true, false⟩ := by
  have hreach : Chronicle.selfBounded.univ.WithinReach :=
    Chronicle.built_selfBounded.valid.consistent.withinReach (of_decide_eq_true (by cbv))
  have hexc : (Solver.query .query (some ⟨3⟩) (some ⟨5⟩) ⟨.selfBounded, {}⟩).1.depthExceeded =
      false := by
    cbv
  obtain ⟨h, -, -⟩ := Served.unflagged_conclusive Chronicle.built_selfBounded hreach .new ⟨3⟩ ⟨5⟩
    (by cbv) (by cbv) (by decide) .query
  obtain ⟨-, hagain, hrelated⟩ := h hexc
  have habove : Chronicle.selfBounded.univ.signature.Above (Chronicle.selfBounded.univ.typeAt ⟨3⟩)
      (Chronicle.selfBounded.univ.typeAt ⟨5⟩) := Or.inr (List.contains_iff_mem.1 (by cbv))
  exact ⟨hreach, hexc, hrelated (by cbv) (by cbv) (.single habove), hagain⟩

/-- A new query on a target without arguments is answered without a flag, and the answer is recorded. -/
theorem query_of_not_generic (hne : source ≠ target) (h : s.univ.isGeneric target = false)
    (hnew : s.verdicts.entries[(⟨source, target⟩ : Pair)]? = none) {limits : Limits}
    (hdepth : 0 < limits.depth) (hsteps : 0 < limits.steps) :
    let r := Solver.query limits (some source) (some target) s
    r.1.depthExceeded = false ∧
      r.2.verdicts.entries[(⟨source, target⟩ : Pair)]? = some (.ofSubstitution r.1.substitution) := by
  intro r
  obtain ⟨j, e, -, -, hrun⟩ := run_query (some source) (some target) s
  obtain ⟨depth, steps⟩ := limits
  obtain ⟨levels, rfl⟩ := Nat.exists_eq_add_one.2 hdepth
  rw [show r = _ from hrun _, Search.check_of_unrecorded hne hnew]
  exact Search.evaluate_of_not_generic h rfl hdepth hsteps

/-- In a tower that is higher than a walk goes, the root is reached from the top, but a query does not
find it: the answer has no flag, says no, and is recorded. -/
theorem exists_unflagged_inconclusive : ∃ (c : Chronicle) (source target : Handle), c.univ.Built ∧
    c.univ.contains source ∧ c.univ.contains target ∧ source ≠ target ∧ c.univ.isOpen source = false ∧
    c.univ.kind? target = some .classKind ∧
    ReflTransGen c.univ.signature.Above (c.univ.typeAt source) (c.univ.typeAt target) ∧
    let r := Solver.query .query (some source) (some target) ⟨c, {}⟩
    r.1.depthExceeded = false ∧ r.1.substitution = none ∧
      r.2.verdicts.entries[(⟨source, target⟩ : Pair)]? = some .noSubstitution := by
  obtain ⟨u, top, line, hlen, htower⟩ := Universe.exists_tower Limits.hierarchy.depth
  obtain ⟨root, hroot⟩ : ∃ root, (top :: line).getLast? = some root :=
    ⟨_, List.getLast?_eq_some_getLast (List.cons_ne_nil top line)⟩
  have hu := htower.built.valid.consistent
  obtain ⟨source, hs, -⟩ := htower.exists_reads List.mem_cons_self
  obtain ⟨target, ht, hkind⟩ := htower.exists_reads (List.mem_of_getLast? hroot)
  have hassign := htower.isAssignable_root hroot hlen.ge
  have hroot_ne : Ty.plain top ≠ .plain root := by
    intro heq
    rw [heq, Signature.isAssignable, beq_self_eq_true, Bool.true_or] at hassign
    cases hassign
  have hne : source ≠ target := by
    rintro rfl
    exact hroot_ne (hs.2.symm.trans ht.2)
  have hres : u.signature.res (.plain top) (.plain root) = none := by
    rw [Signature.res_of_isGeneric_eq_false _ _ rfl, hassign, if_neg]
    rintro (heq | ⟨-, ⟨⟩⟩)
    exact hroot_ne heq
  refine ⟨⟨u, {}⟩, source, target, htower.built, hs.1, ht.1, hne, hu.isOpen_of_reads hs, hkind, ?_, ?_⟩
  · rw [show u.typeAt source = _ from hs.2, show u.typeAt target = _ from ht.2]
    exact htower.reaches_root hroot
  · have hgeneric : u.isGeneric target = false := hu.isGeneric_of_reads ht
    obtain ⟨hexc, hentry⟩ := @query_of_not_generic ⟨⟨u, {}⟩, {}⟩ source target hne hgeneric
      Std.HashMap.getElem?_empty .query (by decide) (by decide)
    obtain ⟨-, hreply⟩ := (exact_new htower.built.valid {}).query .query hs ht
    have hrel := hreply.resolved hexc
    rw [hres] at hrel
    have hnone := Universe.isSome_of_rel hrel
    rw [Option.isSome_none, Option.isSome_eq_false_iff, Option.isNone_iff_eq_none] at hnone
    refine ⟨hexc, hnone, ?_⟩
    rw [hnone] at hentry
    exact hentry

end Solver

end Subtyping
