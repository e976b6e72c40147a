import Subtyping.Proofs.SearchCarries

/-!
# Types without parameters have answers without parameters

The supertypes of a type without parameters have none either, since each parameter of a declaration is
replaced by an argument, provided that no declared supertype nests more applications than replacing goes
through (`Universe.Shallow`). A search passes this on from the source to the answer, so a query on a
source without parameters never resolves to a type with parameters (`Solver.Used.substitution_closed`).
Neither limits nor the parameters of the target matter, and the verdicts on record may be out of date:
declarations may change between queries (`Solver.Used`).
-/

namespace Subtyping

namespace Ty.Formed

variable {S : Signature} {arity : DeclId → Nat} {p q : DeclId → Prop} {decl : DeclId} {t : Ty}

theorem imp (ht : Formed S arity p t) (h : ∀ o index, p o → index < arity o → q o) :
    Formed S arity q t := by
  induction ht with
  | plain harity => exact .plain harity
  | applied hkind hlen _ ih => exact .applied hkind hlen ih
  | param howner hindex => exact .param (h _ _ howner hindex) hindex

/-- Once arguments are put for all parameters, only those of the arguments are left. -/
theorem fill (ht : Formed S arity (· = decl) t) {args : List Ty} (hlen : args.length = arity decl)
    (hargs : ∀ a ∈ args, Formed S arity p a) {levels : Nat} (hnesting : t.nesting ≤ levels) :
    Formed S arity p (t.fill decl args levels) := by
  induction ht generalizing levels with
  | plain harity =>
    rw [Ty.fill]
    · exact .plain harity
  | @applied e ts hkind hlen' _ ih =>
    rw [nesting] at hnesting
    obtain ⟨n, rfl⟩ : ∃ n, levels = n + 1 := ⟨levels - 1, by omega⟩
    rw [Ty.fill]
    refine .applied hkind (by simpa using hlen') fun a ha => ?_
    obtain ⟨t, ht, rfl⟩ := List.mem_map.1 ha
    exact ih t ht ((nesting_le_of_mem ht).trans (by omega))
  | @param owner index howner hindex =>
    subst howner
    have hi : index < args.length := hlen ▸ hindex
    rw [Ty.fill, if_pos rfl, List.getElem?_eq_getElem hi]
    exact hargs _ (List.getElem_mem hi)

theorem isOpen_eq_false (ht : Formed S arity (fun _ => False) t) : t.isOpen = false := by
  induction ht with
  | plain => rfl
  | applied _ _ _ ih =>
    rw [isOpen, anyOwner, anyOwnerIn_eq_any, List.any_eq_false]
    exact fun a ha => Bool.not_eq_true _ ▸ ih a ha
  | param howner => exact howner.elim

end Ty.Formed

/-! ## Going up -/

/-- No declared supertype nests more applications than replacing parameters goes through. -/
structure Signature.Shallow (S : Signature) : Prop where
  base : ∀ {decl t}, S.declBase decl = some t → t.nesting ≤ Limits.instantiation.depth
  interfaces : ∀ {decl t}, t ∈ S.declInterfaces decl → t.nesting ≤ Limits.instantiation.depth

/-- Types without parameters pass this on. -/
theorem Signature.Scoped.passes_closed {S : Signature} {arity : DeclId → Nat} (hS : S.Scoped arity)
    (hshallow : S.Shallow) : S.Passes (Ty.Formed S arity fun _ => False) := by
  refine ⟨fun {t b} ht hb => ?_, fun {t i} ht hi => ?_, fun {decl as} ht => ?_,
    fun {decl as xs} ht hlen hxs => ?_⟩
  · cases ht with
    | plain harity => exact (hS.base hb).1.imp fun o index ho hindex => by subst ho; omega
    | applied _ hlen hargs =>
      obtain ⟨base, hbase, rfl⟩ := Option.map_eq_some_iff.1 hb
      exact (hS.base hbase).1.fill hlen hargs (hshallow.base hbase)
    | param howner => exact howner.elim
  · cases ht with
    | plain harity => exact (hS.interfaces hi).1.imp fun o index ho hindex => by subst ho; omega
    | applied _ hlen hargs =>
      obtain ⟨interface, hmem, rfl⟩ := List.mem_map.1 hi
      exact (hS.interfaces hmem).1.fill hlen hargs (hshallow.interfaces hmem)
    | param howner => exact howner.elim
  · cases ht with
    | applied _ _ hargs => exact hargs
  · cases ht with
    | applied hkind hlen' _ => exact .applied hkind (hlen.trans hlen') hxs

namespace Universe

variable {u v : Universe} {ty : Handle} {t : Ty}

/-- No declared supertype nests more applications than replacing parameters goes through. -/
def Shallow (u : Universe) : Prop :=
  ∀ d ∈ u.catalog.entries, (∀ ty ∈ d.base, (u.typeAt ty).nesting ≤ Limits.instantiation.depth) ∧
    ∀ ty ∈ d.interfaces, (u.typeAt ty).nesting ≤ Limits.instantiation.depth

instance (u : Universe) : Decidable u.Shallow :=
  inferInstanceAs (Decidable (∀ d ∈ u.catalog.entries, (∀ ty ∈ d.base, _) ∧ ∀ ty ∈ d.interfaces, _))

theorem Shallow.signature (h : u.Shallow) : u.signature.Shallow := by
  refine ⟨fun {decl t} ht => ?_, fun {decl t} ht => ?_⟩
  · obtain ⟨base, hbase, rfl⟩ := Option.map_eq_some_iff.1 ht
    obtain ⟨d, hd, hb⟩ := Option.bind_eq_some_iff.1 hbase
    exact (h d (Catalog.mem_entries_of_get? hd)).1 base hb
  · obtain ⟨interface, hmem, rfl⟩ := List.mem_map.1 ht
    cases hd : u.catalog.get? decl with
    | none => simp [hd] at hmem
    | some d =>
      rw [hd] at hmem
      exact (h d (Catalog.mem_entries_of_get? hd)).2 interface hmem

/-- A known type has no parameters exactly if its tree is formed without any. -/
theorem Consistent.formed_iff (hu : u.Consistent) (h : u.Reads ty t) :
    t.Formed u.signature u.arity (fun _ => False) ↔ t.isOpen = false :=
  ⟨Ty.Formed.isOpen_eq_false, fun hclosed =>
    (hu.formed_of_reads _ h hclosed).imp fun _ _ ho _ => Bool.false_ne_true ho.symm⟩

end Universe

/-! ## A solver in use -/

namespace Solver

variable {s : Solver} {source target : Handle}

/-- A solver that comes by use from a new one, on known types, in a universe that may change between
queries in any way. The universe is shallow whenever the solver is asked; it may be shared with other
solvers. -/
inductive Used : Solver → Prop where
  | new {c : Chronicle} (hc : c.univ.Built) : Used ⟨c, {}⟩
  | operation {s : Solver} (hs : Used s) {op : Operation} (h : ∀ ty ∈ op.handles, s.univ.contains ty) :
      Used ⟨(op.run s.chronicle).2, s.verdicts⟩
  | query {s : Solver} (hs : Used s) (hshallow : s.univ.Shallow) (limits : Limits)
      {source target : Option Handle} (hsource : ∀ ty ∈ source, s.univ.contains ty)
      (htarget : ∀ ty ∈ target, s.univ.contains ty) : Used (Solver.query limits source target s).2
  | clear {s : Solver} (hs : Used s) : Used (Solver.clear s).2
  | other {s : Solver} (hs : Used s) {verdicts : Verdicts} (hv : Used ⟨s.chronicle, verdicts⟩)
      (limits : Limits) {source target : Option Handle}
      (hsource : ∀ ty ∈ source, s.univ.contains ty) (htarget : ∀ ty ∈ target, s.univ.contains ty) :
      Used ⟨(Solver.query limits source target ⟨s.chronicle, verdicts⟩).2.chronicle, s.verdicts⟩

/-- What holds of a solver in use: its verdicts are on known types, and none on a source without
parameters has a type with parameters. -/
structure Kept (s : Solver) : Prop where
  valid : s.univ.Valid
  wellDeclared : s.univ.WellDeclared
  entries : ∀ {pair : Pair} {verdict : Verdict}, s.verdicts.entries[pair]? = some verdict →
    s.univ.contains pair.source ∧ s.univ.Bears (·.isOpen = false)
      ((s.univ.typeAt pair.source).isOpen = false) verdict.substitution?

namespace Kept

/-- Types that are known stay as they are, so verdicts stay as well when the universe changes. -/
theorem change {c : Chronicle} (hs : s.Kept) (hvalid : c.univ.Valid) (hw : c.univ.WellDeclared)
    (hext : s.univ.table.Extends c.univ.table) : Kept ⟨c, s.verdicts⟩ := by
  have htypeAt : ∀ {ty}, s.univ.contains ty → c.univ.typeAt ty = s.univ.typeAt ty := fun h =>
    hext.typeAt_eq hs.valid.consistent.table hvalid.consistent.table h
  refine ⟨hvalid, hw, fun {pair verdict} h => ?_⟩
  obtain ⟨hsource, hbears⟩ := hs.entries h
  refine ⟨hext.isSome hsource, fun ty hty => ?_⟩
  obtain ⟨t, ht, hclosed⟩ := hbears ty hty
  exact ⟨t, ⟨hext.isSome ht.1, (htypeAt ht.1).trans ht.2⟩, fun h => hclosed (htypeAt hsource ▸ h)⟩

theorem passes (hs : s.Kept) (hshallow : s.univ.Shallow) :
    s.univ.signature.Passes (Ty.Formed s.univ.signature s.univ.arity fun _ => False) :=
  (hs.valid.consistent.scoped hs.wellDeclared).passes_closed hshallow.signature

/-- The search of a query starts from verdicts that pass on that there are no parameters. -/
theorem passing (hs : s.Kept) (limits : Limits) :
    Search.Passing s.univ.signature (Ty.Formed s.univ.signature s.univ.arity fun _ => False)
      (.start s limits) := by
  have hu := hs.valid.consistent
  refine ⟨hu, hs.valid.owned, rfl, fun {pair verdict} h => ?_⟩
  obtain ⟨hsource, hbears⟩ := hs.entries h
  refine ⟨hsource, fun ty hty => ?_⟩
  obtain ⟨t, ht, hclosed⟩ := hbears ty hty
  exact ⟨t, ht, fun hformed => (hu.formed_iff ht).2 (hclosed hformed.isOpen_eq_false)⟩

/-- A query keeps the verdicts so. -/
theorem query (hs : s.Kept) (hshallow : s.univ.Shallow) (limits : Limits)
    {source target : Option Handle} (hsource : ∀ ty ∈ source, s.univ.contains ty)
    (htarget : ∀ ty ∈ target, s.univ.contains ty) : (Solver.query limits source target s).2.Kept := by
  obtain ⟨j, e, -, -, hrun⟩ := run_query source target s
  have hstart : Kept ⟨⟨s.univ, j⟩, s.verdicts⟩ := hs.change hs.valid hs.wellDeclared (.refl _)
  have hp := Search.check_passes (hs.passes hshallow) (hstart.passing limits) hsource htarget
  rw [hrun]
  generalize Search.check _ _ _ = r at hp
  have hg : s.univ.Grows r.2.univ := hp.grows
  refine ⟨hg.valid hs.valid, hs.wellDeclared.grow hg, fun {pair verdict} h => ?_⟩
  obtain ⟨hknown, hbears⟩ := hp.after.entries h
  have hclosed := hg.after.formed_iff (Universe.reads_typeAt hknown)
  rw [hg.signature, hg.arity] at hclosed
  refine ⟨hknown, fun ty hty => ?_⟩
  obtain ⟨t, ht, hformed⟩ := hbears ty hty
  exact ⟨t, ht, fun h => (hformed (hclosed.2 h)).isOpen_eq_false⟩

/-- The answer to a query on a source without parameters has none. -/
theorem bears_query (hs : s.Kept) (hshallow : s.univ.Shallow) (limits : Limits)
    (hsource : s.univ.contains source) (htarget : s.univ.contains target) :
    (Solver.query limits (some source) (some target) s).2.univ.Bears (·.isOpen = false)
      (s.univ.isOpen source = false)
      (Solver.query limits (some source) (some target) s).1.substitution := by
  have hu := hs.valid.consistent
  have ha := Universe.reads_typeAt hsource
  obtain ⟨j, e, -, -, hrun⟩ := run_query (some source) (some target) s
  have hstart : Kept ⟨⟨s.univ, j⟩, s.verdicts⟩ := hs.change hs.valid hs.wellDeclared (.refl _)
  obtain ⟨-, hbears⟩ := Search.check_keeps (hs.passes hshallow) (hstart.passing limits) ha
    (Universe.reads_typeAt htarget)
  rw [hrun]
  intro ty hty
  obtain ⟨t, ht, hformed⟩ := hbears ty hty
  refine ⟨t, ht, fun h => (hformed ((hu.formed_iff ha).2 ?_)).isOpen_eq_false⟩
  rwa [← hu.isOpen_of_reads ha]

/-- A query of known types only adds types, whatever the types of the verdicts on record. -/
theorem grows (hs : s.Kept) (limits : Limits) {source target : Option Handle}
    (hsource : ∀ ty ∈ source, s.univ.contains ty) (htarget : ∀ ty ∈ target, s.univ.contains ty) :
    s.univ.Grows (Solver.query limits source target s).2.univ := by
  obtain ⟨j, e, -, -, hrun⟩ := run_query source target s
  have hstart : Search.Passing s.univ.signature (fun _ => True)
      (.start ⟨⟨s.univ, j⟩, s.verdicts⟩ limits) := by
    refine ⟨hs.valid.consistent, hs.valid.owned, rfl, fun {pair verdict} h => ?_⟩
    obtain ⟨hknown, hbears⟩ := hs.entries h
    refine ⟨hknown, fun ty hty => ?_⟩
    obtain ⟨t, ht, -⟩ := hbears ty hty
    exact ⟨t, ht, fun _ => trivial⟩
  rw [hrun]
  exact (Search.check_passes .trivial hstart hsource htarget).grows

end Kept

/-- However a solver is used, it passes on that there are no parameters. -/
theorem Used.kept (h : s.Used) : s.Kept := by
  induction h with
  | new hc => exact ⟨hc.valid, hc.wellDeclared, fun h => by simp at h⟩
  | @operation s _ op h ih =>
    obtain ⟨hvalid, hext⟩ := Operation.valid_run ih.valid h s.chronicle.journal
    exact ih.change hvalid (ih.wellDeclared.operation ih.valid h _) hext
  | query _ hshallow limits hsource htarget ih => exact ih.query hshallow limits hsource htarget
  | clear _ ih =>
    refine ⟨ih.valid, ih.wellDeclared, fun {pair verdict} h => ?_⟩
    change ({} : Verdicts).entries[pair]? = some verdict at h
    simp at h
  | other _ _ limits hsource htarget ih ihv =>
    have hg := ihv.grows limits hsource htarget
    exact ih.change (hg.valid ih.valid) (ih.wellDeclared.grow hg) hg.table

/-- A query on a source without parameters never resolves to a type with parameters. -/
theorem Used.substitution_closed (hs : s.Used) (hshallow : s.univ.Shallow) (source target : Handle)
    (hsource : s.univ.contains source) (hclosed : s.univ.isOpen source = false)
    (htarget : s.univ.contains target) (limits : Limits) (ty : Handle) :
    let r := Solver.query limits (some source) (some target) s
    r.1.substitution = some ty → r.2.univ.contains ty ∧ r.2.univ.isOpen ty = false := by
  intro r hty
  have hsource' : ∀ ty ∈ some source, s.univ.contains ty := by simpa using hsource
  have htarget' : ∀ ty ∈ some target, s.univ.contains ty := by simpa using htarget
  obtain ⟨t, ht, hclosed'⟩ := hs.kept.bears_query hshallow limits hsource htarget ty hty
  have hu := (hs.kept.query hshallow limits hsource' htarget').valid.consistent
  exact ⟨ht.1, (hu.isOpen_of_reads ht).trans (hclosed' hclosed)⟩

/-- Interfaces `Box<T>` and `Pair<K, V>`, and classes `Dog` and `Twin<T>`. Of the types, `Pair<K, V>` is
the fifth, `Dog` the sixth, `Pair<T, Box<T>>` with the parameter of `Twin` the tenth and `Twin<Dog>` the
eleventh. -/
def twinned : Chronicle :=
  Operation.runAll
    [.declare (.bare .interfaceKind "Box" ["T"]), .declare (.bare .interfaceKind "Pair" ["K", "V"]),
      .declare (.bare .classKind "Dog" []), .declare (.bare .classKind "Twin" ["T"]),
      .apply ⟨2⟩ [⟨7⟩], .apply ⟨5⟩ [⟨7⟩, ⟨9⟩], .apply ⟨8⟩ [⟨6⟩]] .fresh

/-- The solver that was asked about `Dog` and `Pair<K, V>` before `Twin<T>` got its interface
`Pair<T, Box<T>>`. -/
def twinnedLater : Solver :=
  let asked := (Solver.query .query (some ⟨6⟩) (some ⟨5⟩) ⟨twinned, {}⟩).2
  ⟨((Operation.addInterface ⟨8⟩ ⟨10⟩).run asked.chronicle).2, asked.verdicts⟩

theorem used_twinnedLater : twinnedLater.Used := by
  have hbuilt : twinned.univ.Built := Operation.built_runAll .empty (by cbv)
  have hshallow : twinned.univ.Shallow := of_decide_eq_true (by cbv)
  have hhandles : ∀ ty ∈ [⟨8⟩, ⟨10⟩],
      (Solver.query .query (some ⟨6⟩) (some ⟨5⟩) ⟨twinned, {}⟩).2.univ.contains ty :=
    List.all_eq_true.1 (by cbv)
  exact .operation (.query (.new hbuilt) hshallow .query (by rintro _ ⟨⟩; cbv)
    (by rintro _ ⟨⟩; cbv)) hhandles

theorem query_twinnedLater :
    (Solver.query .query (some ⟨11⟩) (some ⟨5⟩) twinnedLater).1.substitution = some ⟨13⟩ ∧
      (Solver.query .query (some ⟨11⟩) (some ⟨5⟩) twinnedLater).2.univ.display ⟨13⟩ =
        "Pair<Dog, Box<Dog>>" :=
  ⟨by cbv, by cbv⟩

/-- For the open definition `Pair<,>`, `Twin<Dog>` resolves to `Pair<Dog, Box<Dog>>`. -/
theorem Used.substitution_closed_twinned :
    twinnedLater.univ.Shallow ∧ twinnedLater.univ.isOpen ⟨5⟩ = true ∧
      (Solver.query .query (some ⟨11⟩) (some ⟨5⟩) twinnedLater).1.substitution = some ⟨13⟩ ∧
      (Solver.query .query (some ⟨11⟩) (some ⟨5⟩) twinnedLater).2.univ.display ⟨13⟩ =
        "Pair<Dog, Box<Dog>>" ∧
      (Solver.query .query (some ⟨11⟩) (some ⟨5⟩) twinnedLater).2.univ.contains ⟨13⟩ ∧
      (Solver.query .query (some ⟨11⟩) (some ⟨5⟩) twinnedLater).2.univ.isOpen ⟨13⟩ = false := by
  have hshallow : twinnedLater.univ.Shallow := of_decide_eq_true (by cbv)
  obtain ⟨hanswer, hdisplay⟩ := query_twinnedLater
  exact ⟨hshallow, by cbv, hanswer, hdisplay, substitution_closed used_twinnedLater hshallow ⟨11⟩ ⟨5⟩
    (by cbv) (by cbv) (by cbv) .query ⟨13⟩ hanswer⟩

end Solver

end Subtyping
