import Subtyping.Proofs.Spelling

/-!
# Reading back what is written

An expression for a type that is there resolves to that type and adds nothing
(`TypeExpr.resolve_yields`). The text of a type is a text for such an expression. So it resolves to the
type itself, in the scope of the declaration whose parameters it shows, and types with different handles
have different texts (`Universe.Built.resolveText_display`).
-/

namespace Subtyping

open UniverseM TypeExpr

/-! ## Types that are there -/

section Yields

variable {ε ε' α β : Type} {c : Chronicle} {u : Universe} {j : Journal}

/-- Work succeeds and changes nothing. -/
def Yields (c : Chronicle) (x : ExceptT ε UniverseM α) (a : α) : Prop :=
  x.run c = (.ok a, c)

namespace Yields

theorem pure (a : α) : Yields c (pure a : ExceptT ε UniverseM α) a :=
  rfl

theorem bind {x : ExceptT ε UniverseM α} {f : α → ExceptT ε UniverseM β} {a : α} {b : β}
    (hx : Yields c x a) (hf : Yields c (f a) b) : Yields c (x >>= f) b := by
  have hbind : ∀ {γ δ : Type} (y : UniverseM γ) (k : γ → UniverseM δ), (y >>= k) c = k (y c).1 (y c).2 :=
    fun _ _ => rfl
  rw [Yields, ExceptT.run_bind, hbind, hx]
  exact hf

theorem view (f : Universe → α) : Yields c (Attempt.view f) (f c.univ) :=
  rfl

theorem require {f : Universe → Except Universe.Error α} {a : α} (h : f c.univ = .ok a) :
    Yields c (Declaring.require f) a := by
  show (f c.univ, c) = _
  rw [h]

theorem within {x : Attempt α} {a : α} (hx : Yields c x a) (context : Context) :
    Yields c (Attempt.within context x) a := by
  show ((x.run c).1.mapError _, (x.run c).2) = _
  rw [hx]
  rfl

theorem ofDeclaring {x : Declaring α} {a : α} (hx : Yields c x a) :
    Yields c (Attempt.ofDeclaring x) a := by
  show ((x.run c).1.mapError _, (x.run c).2) = _
  rw [hx]
  rfl

/-- A shape that is there is found, not added. -/
theorem intern (hu : u.Consistent) {shape : Shape} {ty : Handle} (h : u.shape? ty = some shape) :
    Yields ⟨u, j⟩ (liftM (UniverseM.intern shape) : Declaring Handle) ty := by
  have hfound : u.table.intern shape = (ty, u.table) := by
    rw [TypeTable.intern, (hu.table.index_iff shape ty).2 h]
  show (Except.ok (u.table.intern shape).1,
    (⟨{ u with table := (u.table.intern shape).2 }, j⟩ : Chronicle)) = _
  rw [hfound]

end Yields

end Yields

/-! ## Resolving expressions for types that are there -/

theorem eq_ok_of_toOption {ε α : Type} {x : Except ε α} {a : α} (h : x.toOption = some a) :
    x = .ok a := by
  cases x with
  | error e => cases h
  | ok b => exact congrArg _ (Option.some.inj h)

theorem Universe.Consistent.eq_of_forall₂_reads {u : Universe} (hu : u.Consistent)
    {l l' : List Handle} {ts : List Ty} (h : List.Forall₂ u.Reads l ts)
    (h' : List.Forall₂ u.Reads l' ts) : l = l' := by
  induction h generalizing l' with
  | nil =>
    cases h'
    rfl
  | cons hr _ ih =>
    cases h' with
    | cons hr' hrs' => rw [(hu.eq_iff_of_reads hr hr').2 rfl, ih hrs']

namespace Declaring

variable {u : Universe} {j : Journal} {t : Ty} {ty : Handle}

/-- A parameter that is there is found by its name. -/
theorem parameterNamed_yields (hu : u.Consistent) {owner : Handle} {name : String}
    (h : (u.head? owner).bind (u.paramNamed? name) = some t) (hr : u.Reads ty t) :
    Yields ⟨u, j⟩ (parameterNamed owner name) ty := by
  obtain ⟨decl, hhead, hnamed⟩ := Option.bind_eq_some_iff.1 h
  obtain ⟨d, hd, hfind⟩ := Option.bind_eq_some_iff.1 hnamed
  obtain ⟨index, hindex, rfl⟩ := Option.map_eq_some_iff.1 hfind
  have hlt : index < d.arity := (List.findIdx?_eq_some_iff_findIdx_eq.1 hindex).1
  have hdecl : u.declarationOf owner = .ok (decl, d) := by
    refine eq_ok_of_toOption ?_
    rw [Universe.toOption_declarationOf, hhead, Option.bind_some, hd]
    rfl
  have hnumber : u.parameterIndex owner name = .ok index := by
    refine eq_ok_of_toOption ?_
    rw [Universe.toOption_parameterIndex, hdecl]
    exact hindex
  refine Yields.bind (.require hnumber) ?_
  refine Yields.bind (.require (Universe.parameterShape_eq_ok hdecl hlt)) ?_
  exact .intern hu (hu.shape?_of_reads_param hr)

/-- So is an application. -/
theorem apply_yields (hu : u.Consistent) {definition : Handle} {t₀ : Ty} {args : List Handle}
    {ts : List Ty} (ht : u.Reads definition t₀) (hargs : List.Forall₂ u.Reads args ts)
    (h : u.applied? t₀ ts = some t) (hr : u.Reads ty t) : Yields ⟨u, j⟩ (apply definition args) ty := by
  obtain ⟨decl, hhead, h⟩ := Option.bind_eq_some_iff.1 h
  obtain ⟨d, hd, h⟩ := Option.bind_eq_some_iff.1 h
  obtain ⟨hfits, heq⟩ := Option.ite_none_right_eq_some.1 h
  cases heq
  obtain ⟨args', hshape, hargs'⟩ := hu.shape?_of_reads_applied hr
  have hsame : args' = args := hu.eq_of_forall₂_reads hargs' hargs
  refine Yields.bind (.require (eq_ok_of_toOption ?_)) (.intern hu (hsame ▸ hshape))
  rw [Universe.toOption_applicationShape (Universe.forall₂_reads_iff.1 hargs).1, hu.head?_of_reads ht,
    hhead, Option.bind_some, hd, Option.bind_some, hargs.length_eq, if_pos hfits]

end Declaring

namespace TypeExpr

open Attempt

variable {u : Universe} {j : Journal} {scope : Option Handle} {name : String} {ty : Handle} {t : Ty}

theorem declared_yields (hu : u.Valid) (h : u.named? name = some t) :
    ∃ definition, u.Reads definition t ∧ Yields ⟨u, j⟩ (declared name) definition := by
  obtain ⟨definition, hlookup, rfl⟩ := Option.map_eq_some_iff.1 h
  refine ⟨definition, Universe.reads_typeAt (hu.contains_of_lookup hlookup), .bind (.view _) ?_⟩
  dsimp only
  rw [hlookup]
  exact .pure definition

theorem run_parameterIn? (owner : Handle) (c : Chronicle) :
    (parameterIn? (some owner) name).run c =
      (.ok ((Declaring.parameterNamed owner name).run c).1.toOption,
        ((Declaring.parameterNamed owner name).run c).2) :=
  rfl

/-- A parameter in scope that is there is found. -/
theorem parameterIn?_yields_some (hu : u.Consistent)
    (h : (scope.bind u.head?).bind (u.paramNamed? name) = some t) (hr : u.Reads ty t) :
    Yields ⟨u, j⟩ (parameterIn? scope name) (some ty) := by
  cases scope with
  | none => cases h
  | some owner => rw [Yields, run_parameterIn?, Declaring.parameterNamed_yields hu h hr]; rfl

/-- Looking for one that is not in scope changes nothing. -/
theorem parameterIn?_yields_none (h : (scope.bind u.head?).bind (u.paramNamed? name) = none) :
    Yields ⟨u, j⟩ (parameterIn? scope name) none := by
  cases scope with
  | none => exact .pure none
  | some owner =>
    have hindex : (u.parameterIndex owner name).toOption = none := by
      rw [Universe.toOption_parameterIndex, Universe.toOption_declarationOf]
      rw [Option.bind_some] at h
      cases hhead : u.head? owner with
      | none => rfl
      | some decl =>
        rw [hhead, Option.bind_some, Universe.paramNamed?] at h
        cases hd : u.catalog.get? decl with
        | none => rw [Option.bind_some, hd]; rfl
        | some d =>
          rw [hd, Option.bind_some, Option.map_eq_none_iff] at h
          rw [Option.bind_some, hd]
          exact h
    rw [Yields, run_parameterIn?, Declaring.parameterNamed, Declaring.run_require_bind]
    cases hrefused : u.parameterIndex owner name with
    | error e => rfl
    | ok index =>
      rw [hrefused] at hindex
      cases hindex

theorem resolveName_yields (hu : u.Valid) (h : u.denote (scope.bind u.head?) (.name name) = some t)
    (hr : u.Reads ty t) : Yields ⟨u, j⟩ (resolveName scope name) ty := by
  rw [Universe.denote] at h
  cases hparam : (scope.bind u.head?).bind (u.paramNamed? name) with
  | some p =>
    rw [hparam] at h
    cases h
    exact Yields.bind (parameterIn?_yields_some hu.consistent hparam hr) (.pure ty)
  | none =>
    rw [hparam, Option.none_or] at h
    obtain ⟨t', hnamed, hguard⟩ := Option.bind_eq_some_iff.1 h
    obtain ⟨rfl, hplain⟩ := Option.guard_eq_some_iff.1 hguard
    obtain ⟨definition, hd, hyields⟩ := declared_yields (j := j) hu hnamed
    obtain rfl := (hu.consistent.eq_iff_of_reads hr hd).2 rfl
    refine Yields.bind (parameterIn?_yields_none hparam) (Yields.bind hyields (Yields.bind (.view _) ?_))
    rw [Bool.not_eq_true', ← hu.consistent.isGeneric_of_reads hr] at hplain
    rw [show Universe.isGeneric (Chronicle.mk u j).univ ty = false from hplain]
    exact .pure ty

theorem resolveSlots_yields (hu : u.Valid) {arity : Nat} {owner : Option DeclId}
    (h : u.denote owner (.slots name arity) = some t) (hr : u.Reads ty t) :
    Yields ⟨u, j⟩ (resolveSlots name arity) ty := by
  rw [Universe.denote] at h
  obtain ⟨t', hnamed, hguard⟩ := Option.bind_eq_some_iff.1 h
  obtain ⟨rfl, hslots⟩ := Option.guard_eq_some_iff.1 hguard
  obtain ⟨definition, hd, hyields⟩ := declared_yields (j := j) hu hnamed
  obtain rfl := (hu.consistent.eq_iff_of_reads hr hd).2 rfl
  have hargs := (hu.consistent.arguments_of_reads hr).length_eq
  rw [← hu.consistent.isGeneric_of_reads hr, ← hargs] at hslots
  refine Yields.bind hyields (Yields.bind (.view _) (Yields.bind (.view _) ?_))
  dsimp only
  rw [if_pos hslots]
  exact .pure ty

mutual

/-- An expression for a type that is there resolves to the type, and nothing changes. -/
theorem resolve_yields (hu : u.Valid) : ∀ (e : TypeExpr) {ty : Handle} {t : Ty},
    u.denote (scope.bind u.head?) e = some t → u.Reads ty t → Yields ⟨u, j⟩ (resolve scope e) ty
  | .name n, _, _, h, hr => by
    rw [resolve]
    exact resolveName_yields hu h hr
  | .slots n arity, _, _, h, hr => by
    rw [resolve]
    exact resolveSlots_yields hu h hr
  | .apply n args, _, _, h, hr => by
    rw [Universe.denote] at h
    obtain ⟨t₀, hnamed, h⟩ := Option.bind_eq_some_iff.1 h
    obtain ⟨ts, hargs, happlied⟩ := Option.bind_eq_some_iff.1 h
    obtain ⟨definition, hd, hyields⟩ := declared_yields (j := j) hu hnamed
    obtain ⟨decl, rfl⟩ := Universe.eq_of_applied?_eq_some happlied
    obtain ⟨tys, -, htys⟩ := hu.consistent.shape?_of_reads_applied hr
    rw [resolve]
    refine Yields.bind hyields (Yields.bind (resolveAll_yields hu args hargs htys) ?_)
    exact ((Declaring.apply_yields hu.consistent hd htys happlied hr).ofDeclaring).within _

theorem resolveAll_yields (hu : u.Valid) : ∀ (es : List TypeExpr) {tys : List Handle} {ts : List Ty},
    u.denoteAll (scope.bind u.head?) es = some ts → List.Forall₂ u.Reads tys ts →
      Yields ⟨u, j⟩ (resolveAll scope es) tys
  | [], _, _, h, hr => by
    cases h
    cases hr
    exact .pure []
  | e :: es, _, _, h, hr => by
    rw [Universe.denoteAll] at h
    obtain ⟨t, ht, h⟩ := Option.bind_eq_some_iff.1 h
    obtain ⟨ts, hts, rfl⟩ := Option.map_eq_some_iff.1 h
    cases hr with
    | cons hr hrs =>
      rw [resolveAll]
      refine Yields.bind (resolve_yields hu e ht hr) ?_
      exact Yields.bind (resolveAll_yields hu es hts hrs) (.pure _)

end

end TypeExpr

/-! ## Reading the text of a type -/

namespace Universe

variable {u : Universe} {ty ty' : Handle} {scope : Option Handle}

/-- The scope that the text of a type is meant for: none if there are no parameters in it or it is an
open definition, and otherwise the declaration that owns them all, if its parameters have different names,
none of which is the name of a plain type in the type. -/
inductive ReadIn (u : Universe) (ty : Handle) : Option Handle → Prop where
  | closed (h : u.isOpen ty = false) : ReadIn u ty none
  | definition {decl : DeclId} (h : u.ownType? decl = some ty) : ReadIn u ty none
  | owned {scope : Handle} {decl : DeclId} {d : Declaration} (hscope : u.head? scope = some decl)
      (hd : u.catalog.get? decl = some d) (howner : u.anyOwner (· != decl) ty = false)
      (hdistinct : (d.parameters.map (·.name)).Nodup)
      (hplain : ∀ x, .plain x ∈ (u.typeAt ty).leaves → u.catalog.nameOf x ∉ d.parameters.map (·.name)) :
      ReadIn u ty (some scope)

/-- The text of a type is written out in full, and not cut off. -/
def WrittenOut (u : Universe) (ty : Handle) : Prop :=
  (u.typeAt ty).nesting ≤ 32 ∨ ∃ decl, u.ownType? decl = some ty

theorem Valid.nesting_lt_of_writtenOut (hu : u.Valid) (h : u.WrittenOut ty) :
    (u.typeAt ty).nesting < displayLevels := by
  rcases h with h | ⟨decl, hown⟩
  · exact Nat.lt_succ_of_le h
  · obtain ⟨d, -, hr⟩ := hu.reads_of_ownType? hown
    rw [hr.2]
    exact (Ty.nesting_own_le decl d.arity).trans_lt (by decide)

/-- In that scope the expression for a type stands for it. -/
theorem Valid.denote_of_readIn (hu : u.Valid) (hf : u.catalog.Filed) (hty : u.contains ty)
    (hscope : u.ReadIn ty scope) :
    u.denote (scope.bind u.head?) (u.catalog.expr (u.typeAt ty)) = some (u.typeAt ty) := by
  have hr := reads_typeAt hty
  refine hu.denote_expr hf hr ?_
  cases hscope with
  | closed h =>
    rw [hu.consistent.isOpen_of_reads hr] at h
    exact Or.inr (Catalog.unshadowed_of_isOpen_eq_false h)
  | @definition decl h =>
    obtain ⟨d, -, hown⟩ := hu.reads_of_ownType? h
    rw [hown.2]
    by_cases harity : d.arity = 0
    · rw [Ty.own, if_pos harity]
      exact Or.inr (Catalog.unshadowed_of_isOpen_eq_false rfl)
    · exact Or.inl ⟨by rw [Ty.own, if_neg harity]; rfl, decl, d.arity, rfl⟩
  | @owned scope decl d hscope hd howner hdistinct hplain =>
    rw [Option.bind_some, hscope]
    rw [hu.consistent.anyOwner_of_reads _ hr] at howner
    refine Or.inr ⟨fun owner index hp => ?_, ?_, ?_⟩
    · by_contra hne
      have hforeign : (owner != decl) = true := bne_iff_ne.2 fun heq => hne (heq ▸ rfl)
      rw [Ty.anyOwner_of_mem_leaves hp hforeign] at howner
      cases howner
    · rintro _ ⟨⟩ d' hd'
      cases hd.symm.trans hd'
      exact hdistinct
    · rintro _ ⟨⟩ d' hd' x hx
      cases hd.symm.trans hd'
      exact hplain x hx

/-- The text of a type resolves to the type. -/
theorem Built.resolveText_yields (hu : u.Built) (hnames : u.catalog.WellNamed) (hty : u.contains ty)
    (hwritten : u.WrittenOut ty) (hscope : u.ReadIn ty scope) (j : Journal) :
    Yields ⟨u, j⟩ (resolveText scope (u.display ty)) ty := by
  have hvalid := hu.valid
  have hr := reads_typeAt hty
  obtain ⟨hwrites, hfits⟩ :=
    hvalid.consistent.writes_expr hnames hr (hvalid.nesting_lt_of_writtenOut hwritten)
  rw [resolveText, hvalid.consistent.display_of_reads hvalid.owned hr,
    parse_of_spaced hfits hwrites.spaced]
  exact resolve_yields hvalid _ (hvalid.denote_of_readIn hu.filed hty hscope) hr

/-- The text of a type resolves to the type itself, in the scope that it is meant for, and nothing is
added. So no two types have the same text for the same scope. -/
theorem Built.resolveText_display (hu : u.Built) (hnames : u.catalog.WellNamed) (hty : u.contains ty)
    (hwritten : u.WrittenOut ty) (hscope : u.ReadIn ty scope) :
    (∀ j, (resolveText scope (u.display ty)).run ⟨u, j⟩ = (.ok ty, ⟨u, j⟩)) ∧
      ∀ ty', u.contains ty' → u.WrittenOut ty' → u.ReadIn ty' scope → u.display ty' = u.display ty →
        ty' = ty := by
  have hyields := hu.resolveText_yields hnames hty hwritten hscope
  refine ⟨hyields, fun ty' hty' hwritten' hscope' heq => ?_⟩
  have hyields' := hu.resolveText_yields hnames hty' hwritten' hscope' {}
  rw [heq, Yields, hyields {}] at hyields'
  exact (Except.ok.inj (Prod.mk.inj hyields').1).symm

end Universe

/-- The universe of an interface `Map<K, V>` and a class `zoo.Dog`, with the types `Map<K, zoo.Dog>` and
`Map<Map<K, zoo.Dog>, Map<K, V>>`, which are the last two of six. -/
def Chronicle.mapped : Chronicle :=
  Operation.runAll
    [.declare (.bare .interfaceKind "Map" ["K", "V"]), .declare (.bare .classKind "zoo.Dog" []),
      .apply ⟨3⟩ [⟨1⟩, ⟨4⟩], .apply ⟨3⟩ [⟨5⟩, ⟨3⟩]] .fresh

theorem Chronicle.built_mapped : mapped.univ.Built :=
  Operation.built_runAll .empty (by cbv)

theorem Chronicle.entries_mapped : mapped.univ.catalog.entries =
    #[.bare .interfaceKind "Map" ["K", "V"], .bare .classKind "zoo.Dog" []] := by
  cbv

theorem Chronicle.typeAt_mapped : mapped.univ.typeAt ⟨6⟩ =
    .applied ⟨1⟩
      [.applied ⟨1⟩ [.param ⟨1⟩ 0, .plain ⟨2⟩], .applied ⟨1⟩ [.param ⟨1⟩ 0, .param ⟨1⟩ 1]] := by
  cbv

theorem Universe.Built.resolveText_display_mapped :
    Chronicle.mapped.univ.display ⟨6⟩ = "Map<Map<K, zoo.Dog>, Map<K, V>>" ∧
      (resolveText (some ⟨3⟩) (Chronicle.mapped.univ.display ⟨6⟩)).run ⟨Chronicle.mapped.univ, {}⟩ =
        (.ok ⟨6⟩, ⟨Chronicle.mapped.univ, {}⟩) := by
  have hnames : Chronicle.mapped.univ.catalog.WellNamed := by
    rw [Catalog.WellNamed, Chronicle.entries_mapped]
    decide
  have hwritten : Chronicle.mapped.univ.WrittenOut ⟨6⟩ := by
    rw [Universe.WrittenOut, Chronicle.typeAt_mapped]
    exact Or.inl (by decide)
  have hscope : Chronicle.mapped.univ.ReadIn ⟨6⟩ (some ⟨3⟩) := by
    have hd : Chronicle.mapped.univ.catalog.get? ⟨1⟩ = some (.bare .interfaceKind "Map" ["K", "V"]) := by
      rw [Catalog.get?, Chronicle.entries_mapped]
      rfl
    have hdog : Chronicle.mapped.univ.catalog.nameOf ⟨2⟩ = "zoo.Dog" := by
      rw [Catalog.nameOf, Catalog.get?, Chronicle.entries_mapped]
      rfl
    refine .owned (by cbv) hd (by cbv) (by decide) fun x hx => ?_
    rw [Chronicle.typeAt_mapped] at hx
    obtain rfl : x = ⟨2⟩ := by simpa [Ty.leaves, Ty.leavesIn] using hx
    rw [hdog]
    decide
  exact ⟨by cbv, (Universe.Built.resolveText_display Chronicle.built_mapped hnames (by cbv) hwritten
    hscope).1 {}⟩

end Subtyping
