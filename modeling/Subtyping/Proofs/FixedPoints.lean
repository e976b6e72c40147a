import Subtyping.Proofs.Canonical

/-!
# Resolved types are fixed points

What a type resolves to for a target is built from the target's definition, and for the same target it
resolves to itself (`Signature.res_res`). The argument goes from the arguments of the target to the
target: an argument that was taken as it is, or that was replaced by what it stands for, meets its
position again and stays (`Signature.resArg_resArg`), so the resolved type suits, and it is the first
candidate for itself. A query on the resolved type, by whatever solver and under whatever limits, gives
it back unless a limit refused a question (`Solver.Served.substitution_fixed`).
-/

namespace Subtyping

namespace Signature

variable {S : Signature} {a b x : Ty} {decl : DeclId} {args targets : List Ty}

/-- A type built from the target's definition is what was resolved. -/
theorem isBuiltFrom_of_res (h : S.res a (.applied decl targets) = some x) : x.isBuiltFrom decl := by
  rw [res] at h
  split_ifs at h with he hi hb
  · cases h
    rw [he]
    exact beq_self_eq_true decl
  · obtain ⟨c, -, rfl⟩ := Option.map_eq_some_iff.1 h
    exact beq_self_eq_true decl
  · exact List.find?_some h

/-- A type of the generic class or struct resolves to itself, since it begins its own base chain. -/
theorem res_of_isBuiltFrom (hi : ¬ S.isInterface (.applied decl targets))
    (hb : S.isBaseKind (.applied decl targets)) (hx : x.isBuiltFrom decl) :
    S.res x (.applied decl targets) = some x := by
  obtain ⟨steps, hsteps⟩ : ∃ n, Limits.hierarchy.depth = n + 1 := ⟨_, rfl⟩
  rw [res]
  split_ifs
  · rfl
  · rw [chain, hsteps, chainFrom]
    split <;> rw [List.find?_cons_of_pos hx]

/-- A type of the generic interface that suits resolves to itself if its arguments do. -/
theorem res_of_suits (hi : S.isInterface (.applied decl targets))
    (hsuits : S.Suits S.Sub decl targets (.applied decl args))
    (hargs : S.resArgs args targets = args) :
    S.res (.applied decl args) (.applied decl targets) = some (.applied decl args) := by
  rw [res]
  split_ifs
  · rfl
  · rw [candidate?, firstSuited_cons_of_suits hsuits, Option.map_some, Ty.args, hargs]

/-- What results at a position meets it, and results again. -/
theorem resArg_resArg {arg target : Ty} (h : S.Meets S.Sub arg target)
    (ih : ∀ x, S.res arg target = some x → S.res x target = some x) :
    S.Meets S.Sub (S.resArg arg target) target ∧
      S.resArg (S.resArg arg target) target = S.resArg arg target := by
  by_cases htaken : target.isParam ∨ arg = target ∨ S.isAssignable arg target
  · have hsame : S.resArg arg target = arg := by rw [resArg, if_pos htaken]
    rw [hsame, hsame]
    exact ⟨h, rfl⟩
  · -- the argument is neither a match nor assignable, so it was replaced by what it stands for
    obtain ⟨hparam, hne, hassign⟩ : ¬ target.isParam ∧ arg ≠ target ∧ ¬ S.isAssignable arg target := by
      simpa only [not_or] using htaken
    rw [Bool.not_eq_true] at hparam
    have hsub : S.Sub arg target := by
      rcases (meets_iff_accepts hparam).1 h with h | h | h
      · exact absurd h hne
      · exact absurd h hassign
      · exact h
    obtain ⟨x, hx⟩ := Option.isSome_iff_exists.1 (isSome_res_iff.2 hsub)
    have hstands : S.resArg arg target = x := by rw [resArg, if_neg htaken, hx, Option.getD_some]
    have hagain := ih x hx
    rw [hstands]
    refine ⟨(meets_iff_accepts hparam).2 (Or.inr (Or.inr (isSome_res_iff.1 ?_))), ?_⟩
    · rw [hagain]
      rfl
    · rw [resArg, hagain, Option.getD_some, ite_self]

theorem resArgs_nil (targets : List Ty) : S.resArgs [] targets = [] := by
  rw [resArgs]
  simp

theorem resArgs_resArgs (h : List.Forall₂ (S.Meets S.Sub) args targets)
    (ih : ∀ t ∈ targets, ∀ a x, S.res a t = some x → S.res x t = some x) :
    List.Forall₂ (S.Meets S.Sub) (S.resArgs args targets) targets ∧
      S.resArgs (S.resArgs args targets) targets = S.resArgs args targets := by
  induction h with
  | nil =>
    rw [resArgs_nil, resArgs_nil]
    exact ⟨.nil, rfl⟩
  | @cons arg target args targets hmeets _ hrest =>
    obtain ⟨hmeets', hstays⟩ := resArg_resArg hmeets (ih target List.mem_cons_self arg)
    obtain ⟨hall, hall'⟩ := hrest fun t ht => ih t (List.mem_cons_of_mem _ ht)
    rw [resArgs_cons, resArgs_cons, hstays, hall']
    exact ⟨.cons hmeets' hall, rfl⟩

/-- The resolved type resolves to itself. -/
theorem res_res (h : S.res a b = some x) : S.res x b = some x := by
  induction b generalizing a x with
  | plain decl =>
    rw [res_of_isGeneric_eq_false S _ rfl] at h ⊢
    split_ifs at h with ha
    cases h
    rw [if_pos ha]
  | param owner index =>
    rw [res_of_isGeneric_eq_false S _ rfl] at h ⊢
    split_ifs at h with ha
    cases h
    rw [if_pos ha]
  | applied decl targets ih =>
    have hbuilt := isBuiltFrom_of_res h
    rw [res] at h
    split_ifs at h with he hi hb
    · cases h
      rw [he]
      exact res_self S _
    · obtain ⟨c, hc, rfl⟩ := Option.map_eq_some_iff.1 h
      have hsuits : S.Suits S.Sub decl targets c := by
        classical
        simpa using List.find?_some hc
      obtain ⟨hmeets, hargs⟩ := resArgs_resArgs hsuits.2 fun t ht a x => ih t ht
      exact res_of_suits hi ⟨hbuilt, hmeets⟩ hargs
    · exact res_of_isBuiltFrom hi hb hbuilt

end Signature

namespace Solver

/-- What a query resolves to is built from the definition of a generic target, and a query on it for the
same target, by any solver in the universe as it is then or later, resolves to itself. -/
theorem Served.substitution_fixed {c : Chronicle} {s : Solver} (hc : c.univ.Built) (hs : s.Served c)
    (source target : Handle) (hsource : s.univ.contains source) (htarget : s.univ.contains target)
    (limits : Limits) (ty : Handle) :
    let r := Solver.query limits (some source) (some target) s
    r.1.depthExceeded = false → r.1.substitution = some ty →
      (s.univ.isGeneric target → ∃ definition, s.univ.definition? target = some definition ∧
        r.2.univ.definition? ty = some definition) ∧
      ∀ (s' : Solver) (limits' : Limits), s'.Served c → r.2.univ.table.Extends s'.univ.table →
        (Solver.query limits' (some ty) (some target) s').1.depthExceeded = false →
          (Solver.query limits' (some ty) (some target) s').1.substitution = some ty := by
  intro r hexc hty
  obtain ⟨hexact, -⟩ := hs.exact hc.valid
  have hb := Universe.reads_typeAt htarget
  obtain ⟨hadv, hreply⟩ := hexact.query limits (Universe.reads_typeAt hsource) hb
  obtain ⟨x, hres, hx⟩ : ∃ x, c.univ.signature.res (s.univ.typeAt source) (s.univ.typeAt target) = some x ∧
      r.2.univ.Reads ty x := by
    have hrel := hreply.resolved hexc
    rw [hty] at hrel
    generalize c.univ.signature.res _ _ = res at hrel
    cases hrel with
    | some hx => exact ⟨_, rfl, hx⟩
  refine ⟨fun hgeneric => ?_, fun s' limits' hs' hext hexc' => ?_⟩
  · rw [hexact.consistent.isGeneric_of_reads hb] at hgeneric
    generalize s.univ.typeAt target = b at hb hgeneric hres
    cases b with
    | plain decl => cases hgeneric
    | param owner index => cases hgeneric
    | applied decl targets =>
      obtain ⟨xs, rfl⟩ := Ty.isBuiltFrom_iff.1 (Signature.isBuiltFrom_of_res hres)
      obtain ⟨d, hd, -⟩ := hexact.consistent.exists_catalog_of_reads hb
      obtain ⟨definition, hown, -⟩ := hexact.owned hd
      refine ⟨definition, (hexact.consistent.definition?_of_reads hb).trans hown, ?_⟩
      rw [hadv.exact.consistent.definition?_of_reads hx, hadv.grows.ownType?, hown]
  · obtain ⟨hexact', -⟩ := hs'.exact hc.valid
    have hlater : ∀ {ty t}, r.2.univ.Reads ty t → s'.univ.Reads ty t := fun h =>
      ⟨hext.isSome h.1,
        (hext.typeAt_eq hadv.exact.consistent.table hexact'.consistent.table h.1).trans h.2⟩
    obtain ⟨hadv', hreply'⟩ := hexact'.query limits' (hlater hx) (hlater (hadv.grows.reads hb))
    have hrel := hreply'.resolved hexc'
    rw [Signature.res_res hres] at hrel
    exact hadv'.exact.consistent.rel_reads_injective hadv'.exact.consistent (.refl _) hrel
      (.some (hadv'.grows.reads (hlater hx)))

/-- An interface `Box<T>`, a class `Dog` with the base `Animal`, and a class `Crate<T>` that implements
`Box<T>`. Of the types, `Box<Crate<Dog>>` is the ninth and `Box<Box<Animal>>` the eleventh. -/
def crated : Chronicle :=
  Operation.runAll
    [.declare (.bare .interfaceKind "Box" ["T"]), .declare (.bare .classKind "Animal" []),
      .declare (.bare .classKind "Dog" []), .setBase ⟨4⟩ ⟨3⟩, .declare (.bare .classKind "Crate" ["T"]),
      .apply ⟨2⟩ [⟨5⟩], .addInterface ⟨6⟩ ⟨7⟩, .apply ⟨6⟩ [⟨4⟩], .apply ⟨2⟩ [⟨8⟩], .apply ⟨2⟩ [⟨3⟩],
      .apply ⟨2⟩ [⟨10⟩]] .fresh

theorem built_crated : crated.univ.Built :=
  Operation.built_runAll .empty (by cbv)

/-- The solver after the query of `Box<Crate<Dog>>` for `Box<Box<Animal>>`. -/
def servedCrated : Solver :=
  (Solver.query .query (some ⟨9⟩) (some ⟨11⟩) ⟨crated, {}⟩).2

set_option maxRecDepth 2000 in
theorem query_crated :
    (Solver.query .query (some ⟨9⟩) (some ⟨11⟩) ⟨crated, {}⟩).1 = ⟨some ⟨13⟩, false, false⟩ ∧
      (Solver.query .query (some ⟨13⟩) (some ⟨11⟩) servedCrated).1.depthExceeded = false ∧
      servedCrated.univ.display ⟨13⟩ = "Box<Box<Dog>>" :=
  ⟨by cbv, by cbv, by cbv⟩

/-- `Box<Crate<Dog>>` resolves to `Box<Box<Dog>>` for `Box<Box<Animal>>`, since the crate is replaced by the
box that it stands for, and `Box<Box<Dog>>` then resolves to itself. -/
theorem Served.substitution_fixed_crated :
    (Solver.query .query (some ⟨9⟩) (some ⟨11⟩) ⟨crated, {}⟩).1 = ⟨some ⟨13⟩, false, false⟩ ∧
      servedCrated.univ.display ⟨13⟩ = "Box<Box<Dog>>" ∧
      servedCrated.univ.definition? ⟨13⟩ = some ⟨2⟩ ∧
      (Solver.query .query (some ⟨13⟩) (some ⟨11⟩) servedCrated).1.substitution = some ⟨13⟩ := by
  obtain ⟨hanswer, hexc, hdisplay⟩ := query_crated
  have hserved : servedCrated.Served crated :=
    .query .new .query (by rintro _ ⟨⟩; cbv) (by rintro _ ⟨⟩; cbv)
  obtain ⟨hdef, hagain⟩ := substitution_fixed built_crated .new ⟨9⟩ ⟨11⟩ (by cbv) (by cbv) .query ⟨13⟩
    (by rw [hanswer]) (by rw [hanswer])
  obtain ⟨definition, hdef, hdef'⟩ := hdef (by cbv)
  have hbox : crated.univ.definition? ⟨11⟩ = some ⟨2⟩ := by cbv
  rw [servedCrated] at hexc hdisplay hserved ⊢
  exact ⟨hanswer, hdisplay, hdef'.trans (hdef.symm.trans hbox),
    hagain _ .query hserved (.refl _) hexc⟩

end Solver

end Subtyping
