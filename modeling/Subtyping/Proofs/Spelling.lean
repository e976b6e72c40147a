import Subtyping.Proofs.Expressions
import Subtyping.Proofs.Grammar
import Subtyping.Proofs.Interning

/-!
# Expressions for trees

Every tree has an expression (`Catalog.expr`). The text of the tree, if it is not cut off, is a text for
that expression (`Universe.Consistent.writes_expr`). The expression stands for the tree again
(`Universe.Valid.denote_expr`), in a scope in which no name means something else (`Catalog.Unshadowed`):
in a universe that is built step by step, every declaration is found under its name
(`Universe.Built.filed`).
-/

namespace Subtyping

open UniverseM TypeExpr

/-! ## Names -/

namespace Catalog

variable {c : Catalog} {decl : DeclId} {d : Declaration}

/-- Every declaration is found under its name. -/
def Filed (c : Catalog) : Prop :=
  ∀ decl d, c.get? decl = some d → c.named? d.name = some decl

/-- All names are ones that can stand in an expression. -/
def WellNamed (c : Catalog) : Prop :=
  ∀ d ∈ c.entries, isName d.name ∧ ∀ p ∈ d.parameters, isName p.name

theorem nameOf_eq (hd : c.get? decl = some d) : c.nameOf decl = d.name := by
  rw [nameOf, hd]
  rfl

theorem paramNameOf_eq {index : Nat} (hd : c.get? decl = some d) (hindex : index < d.parameters.length) :
    c.paramNameOf decl index = d.parameters[index].name := by
  rw [paramNameOf, hd, Option.bind_some, List.getElem?_eq_getElem hindex]
  rfl

theorem WellNamed.nameOf (h : c.WellNamed) (hd : c.get? decl = some d) : isName (c.nameOf decl) := by
  rw [nameOf_eq hd]
  exact (h d (mem_entries_of_get? hd)).1

theorem WellNamed.paramNameOf (h : c.WellNamed) {index : Nat} (hd : c.get? decl = some d)
    (hindex : index < d.parameters.length) : isName (c.paramNameOf decl index) := by
  rw [paramNameOf_eq hd hindex]
  exact (h d (mem_entries_of_get? hd)).2 _ (List.getElem_mem hindex)

end Catalog

namespace Universe

variable {u : Universe}

theorem Built.filed (h : u.Built) : u.catalog.Filed :=
  fun decl d hd => (h.tabulated.names d.name decl).2 ⟨d, hd, rfl⟩

/-- A declaration is looked up by its name. -/
theorem Valid.named?_nameOf (hu : u.Valid) (hf : u.catalog.Filed) {decl : DeclId} {d : Declaration}
    (hd : u.catalog.get? decl = some d) :
    u.named? (u.catalog.nameOf decl) = some (.own decl d.arity) := by
  obtain ⟨ty, hown, hr⟩ := hu.owned hd
  rw [named?, lookup, Catalog.nameOf_eq hd, hf decl d hd, Option.bind_some, hown, Option.map_some, hr.2]

end Universe

/-! ## Expressions for trees -/

namespace Ty

mutual

/-- The plain types and parameters in a tree, from left to right. -/
def leaves : Ty → List Ty
  | plain decl => [plain decl]
  | applied _ args => leavesIn args
  | param owner index => [param owner index]

def leavesIn : List Ty → List Ty
  | [] => []
  | t :: ts => t.leaves ++ leavesIn ts

end

theorem leaves_subset {decl : DeclId} {t : Ty} {ts : List Ty} (h : t ∈ ts) :
    t.leaves ⊆ (applied decl ts).leaves := by
  rw [leaves]
  induction h with
  | head ts => exact List.subset_append_left _ _
  | tail t' _ ih => exact List.Subset.trans ih (List.subset_append_right _ _)

theorem eq_own_of_applied_eq {decl decl' : DeclId} {ts : List Ty} {arity : Nat}
    (h : applied decl ts = own decl' arity) : applied decl ts = own decl ts.length := by
  have hown := h
  unfold own at h
  split_ifs at h
  obtain ⟨rfl, hts⟩ := applied.inj h
  rw [hown, hts, List.length_map, List.length_range]

/-- Parameters are leaves. -/
theorem anyOwner_of_mem_leaves {p : DeclId → Bool} {t : Ty} {owner : DeclId} {index : Nat}
    (h : param owner index ∈ t.leaves) (hp : p owner) : t.anyOwner p := by
  induction t with
  | plain decl => simp [leaves] at h
  | param o i =>
    simp only [leaves, List.mem_singleton, param.injEq] at h
    rw [anyOwner, ← h.1, hp]
  | applied decl args ih =>
    rw [anyOwner, anyOwnerIn_eq_any, List.any_eq_true]
    rw [leaves] at h
    clear * - h ih
    induction args with
    | nil => cases h
    | cons t ts ih' =>
      rw [leavesIn, List.mem_append] at h
      rcases h with h | h
      · exact ⟨t, List.mem_cons_self, ih t List.mem_cons_self h⟩
      · obtain ⟨a, ha, hany⟩ := ih' (fun a ha => ih a (List.mem_cons_of_mem _ ha)) h
        exact ⟨a, List.mem_cons_of_mem _ ha, hany⟩

end Ty

namespace Catalog

variable (c : Catalog)

mutual

/-- The expression for a tree that names all its parameters. -/
def nested : Ty → TypeExpr
  | .plain decl => .name (c.nameOf decl)
  | .param owner index => .name (c.paramNameOf owner index)
  | .applied decl args => .apply (c.nameOf decl) (nestedAll args)

def nestedAll : List Ty → List TypeExpr
  | [] => []
  | t :: ts => nested t :: nestedAll ts

end

theorem nestedAll_eq_map (ts : List Ty) : c.nestedAll ts = ts.map c.nested := by
  induction ts with
  | nil => rfl
  | cons t ts ih => rw [nestedAll, ih, List.map_cons]

/-- The expression for a tree, which for an open definition has empty slots. -/
def expr : Ty → TypeExpr
  | .applied decl args =>
    if Ty.applied decl args == .own decl args.length then .slots (c.nameOf decl) args.length
    else c.nested (.applied decl args)
  | t => c.nested t

/-- An open definition is written with empty slots, any other tree with all its parameters named. -/
theorem expr_cases (t : Ty) :
    (∃ decl ts, t = .applied decl ts ∧ t = .own decl ts.length ∧
      c.expr t = .slots (c.nameOf decl) ts.length ∧
      c.text t = c.nameOf decl ++ "<" ++ String.ofList (List.replicate (ts.length - 1) ',') ++ ">") ∨
    ((∀ decl ts, t = .applied decl ts → t ≠ .own decl ts.length) ∧ c.expr t = c.nested t ∧
      c.text t = c.textWithin Universe.displayLevels false t) := by
  cases t with
  | plain decl =>
    refine Or.inr ⟨fun _ _ h => (by cases h), rfl, ?_⟩
    simp only [text, Universe.displayLevels, textWithin]
  | param owner index =>
    refine Or.inr ⟨fun _ _ h => (by cases h), rfl, ?_⟩
    simp only [text, Universe.displayLevels, textWithin]
  | applied decl ts =>
    by_cases hown : Ty.applied decl ts = .own decl ts.length
    · refine Or.inl ⟨decl, ts, rfl, hown, ?_, ?_⟩
      · rw [expr, if_pos (beq_iff_eq.2 hown)]
      · simp only [text, Universe.displayLevels, textWithin, beq_iff_eq.2 hown, Bool.and_self, if_true]
    · have hbeq : (Ty.applied decl ts == .own decl ts.length) = false := beq_false_of_ne hown
      refine Or.inr ⟨?_, ?_, ?_⟩
      · rintro _ _ ⟨⟩
        exact hown
      · rw [expr, hbeq]
        rfl
      · simp only [text, Universe.displayLevels, textWithin, hbeq, Bool.and_false]

/-- The names in a tree mean in a scope what they mean in the tree: its parameters are those of the
scope, which have different names, none of them the name of a plain type in the tree. -/
structure Unshadowed (scope : Option DeclId) (t : Ty) : Prop where
  owner : ∀ owner index, .param owner index ∈ t.leaves → scope = some owner
  distinct : ∀ owner ∈ scope, ∀ d, c.get? owner = some d → (d.parameters.map (·.name)).Nodup
  plain : ∀ owner ∈ scope, ∀ d, c.get? owner = some d → ∀ decl, .plain decl ∈ t.leaves →
    c.nameOf decl ∉ d.parameters.map (·.name)

variable {c}

theorem Unshadowed.arg {scope : Option DeclId} {decl : DeclId} {t : Ty} {ts : List Ty}
    (h : c.Unshadowed scope (.applied decl ts)) (ht : t ∈ ts) : c.Unshadowed scope t :=
  ⟨fun owner index hp => h.owner owner index (Ty.leaves_subset ht hp), h.distinct,
    fun owner ho d hd x hx => h.plain owner ho d hd x (Ty.leaves_subset ht hx)⟩

theorem unshadowed_of_isOpen_eq_false {t : Ty} (h : t.isOpen = false) : c.Unshadowed none t := by
  refine ⟨fun owner index hp => ?_, fun _ ho => (by cases ho), fun _ ho => (by cases ho)⟩
  have hopen : t.isOpen := Ty.anyOwner_of_mem_leaves hp rfl
  rw [h] at hopen
  cases hopen

end Catalog

namespace Universe

variable {u : Universe} {ty : Handle} {t : Ty} {scope : Option DeclId}

/-! ## Trees as text -/

theorem Consistent.exists_reads_of_mem (hu : u.Consistent) {decl : DeclId} {ts : List Ty}
    (h : u.Reads ty (.applied decl ts)) (ht : t ∈ ts) : ∃ a, u.Reads a t := by
  obtain ⟨args, -, hargs⟩ := hu.shape?_of_reads_applied h
  obtain ⟨hknown, rfl⟩ := forall₂_reads_iff.1 hargs
  obtain ⟨a, ha, rfl⟩ := List.mem_map.1 ht
  exact ⟨a, reads_typeAt (hknown a ha)⟩

/-- The text of a tree is a text for its expression. -/
theorem Consistent.writes_nested (hu : u.Consistent) (hn : u.catalog.WellNamed) {levels : Nat}
    (h : u.Reads ty t) (hlevels : t.nesting < levels) :
    Writes (u.catalog.nested t) (u.catalog.textWithin levels false t).toList := by
  induction levels generalizing ty t with
  | zero => cases hlevels
  | succ levels ih =>
    cases t with
    | plain decl =>
      obtain ⟨d, hd, -⟩ := hu.fits (hu.shape?_of_reads_plain h)
      exact writes_name (hn.nameOf hd)
    | param owner index =>
      obtain ⟨d, hd, hindex⟩ := hu.fits (hu.shape?_of_reads_param h)
      exact writes_name (hn.paramNameOf hd hindex)
    | applied decl ts =>
      obtain ⟨d, hd, -, hne⟩ := hu.exists_catalog_of_reads h
      have hargs : List.Forall₂ Writes (u.catalog.nestedAll ts)
          (ts.map fun t => (u.catalog.textWithin levels false t).toList) := by
        rw [Catalog.nestedAll_eq_map, List.forall₂_map_left_iff, List.forall₂_map_right_iff,
          List.forall₂_same]
        intro t ht
        obtain ⟨a, ha⟩ := hu.exists_reads_of_mem h ht
        exact ih ha ((Ty.nesting_lt_of_mem ht decl).trans_le (Nat.le_of_lt_succ hlevels))
      have htext : (u.catalog.textWithin (levels + 1) false (.applied decl ts)).toList =
          (u.catalog.nameOf decl).toList ++ '<' :: ([',', ' '].intercalate
            (ts.map fun t => (u.catalog.textWithin levels false t).toList) ++ ['>']) := by
        simp [Catalog.textWithin, String.toList_intercalate, Function.comp_def]
      rw [Catalog.nested, htext]
      refine writes_apply (hn.nameOf hd) hargs ?_
      rw [Catalog.nestedAll_eq_map]
      exact fun hnil => hne (List.map_eq_nil_iff.1 hnil)

/-- It is not nested more deeply than the tree. -/
theorem Consistent.fits_nested (hu : u.Consistent) {levels : Nat} (h : u.Reads ty t)
    (hlevels : t.nesting < levels) : (u.catalog.nested t).fits levels := by
  induction levels generalizing ty t with
  | zero => cases hlevels
  | succ levels ih =>
    cases t with
    | plain decl => rfl
    | param owner index => rfl
    | applied decl ts =>
      obtain ⟨d, hd, -, hne⟩ := hu.exists_catalog_of_reads h
      rw [Catalog.nested, Catalog.nestedAll_eq_map, TypeExpr.fits, List.isEmpty_map, List.all_map,
        Bool.and_eq_true, List.all_eq_true, Bool.not_eq_true', List.isEmpty_eq_false_iff]
      refine ⟨hne, fun t ht => ?_⟩
      obtain ⟨a, ha⟩ := hu.exists_reads_of_mem h ht
      exact ih ha ((Ty.nesting_lt_of_mem ht decl).trans_le (Nat.le_of_lt_succ hlevels))

/-- The text of a tree is a text for its expression, with empty slots if the tree is an open
definition. -/
theorem Consistent.writes_expr (hu : u.Consistent) (hn : u.catalog.WellNamed) (h : u.Reads ty t)
    (hlevels : t.nesting < displayLevels) :
    Writes (u.catalog.expr t) (u.catalog.text t).toList ∧ (u.catalog.expr t).fits maxLevel := by
  rcases u.catalog.expr_cases t with ⟨decl, ts, rfl, -, hexpr, htext⟩ | ⟨-, hexpr, htext⟩
  · obtain ⟨d, hd, -, hne⟩ := hu.exists_catalog_of_reads h
    have hchars : (u.catalog.text (.applied decl ts)).toList = (u.catalog.nameOf decl).toList ++
        '<' :: (List.replicate (ts.length - 1) ',' ++ ['>']) := by
      simp [htext]
    rw [hexpr, hchars]
    exact ⟨writes_slots (hn.nameOf hd) ts.length,
      bne_iff_ne.2 fun hlen => hne (List.eq_nil_of_length_eq_zero hlen)⟩
  · rw [hexpr, htext]
    exact ⟨hu.writes_nested hn h hlevels, hu.fits_nested h (hlevels.trans (by decide))⟩

/-! ## Trees back from their expressions -/

theorem paramNamed?_paramNameOf {owner : DeclId} {d : Declaration} {index : Nat}
    (hd : u.catalog.get? owner = some d) (hindex : index < d.parameters.length)
    (hdistinct : (d.parameters.map (·.name)).Nodup) :
    u.paramNamed? (u.catalog.paramNameOf owner index) owner = some (.param owner index) := by
  have hfind : d.parameters.findIdx? (·.name == d.parameters[index].name) = some index := by
    rw [List.findIdx?_eq_some_iff_getElem]
    refine ⟨hindex, beq_self_eq_true _, fun j hj heq => ?_⟩
    have hindex' : index < (d.parameters.map (·.name)).length := by rwa [List.length_map]
    have hj' : j < (d.parameters.map (·.name)).length := hj.trans hindex'
    have hnames : (d.parameters.map (·.name))[j] = (d.parameters.map (·.name))[index] := by
      simpa using heq
    exact absurd (hdistinct.getElem_inj_iff.1 hnames) hj.ne
  rw [paramNamed?, hd, Option.bind_some, Catalog.paramNameOf_eq hd hindex, hfind]
  rfl

theorem paramNamed?_eq_none {name : String} {owner : DeclId}
    (h : ∀ d, u.catalog.get? owner = some d → name ∉ d.parameters.map (·.name)) :
    u.paramNamed? name owner = none := by
  rw [paramNamed?, Option.bind_eq_none_iff]
  intro d hd
  rw [Option.map_eq_none_iff, List.findIdx?_eq_none_iff]
  intro p hp
  rw [beq_eq_false_iff_ne]
  rintro rfl
  exact h d hd (List.mem_map_of_mem hp)

/-- The expression for a tree stands for the tree. -/
theorem Valid.denote_nested (hu : u.Valid) (hf : u.catalog.Filed) (h : u.Reads ty t)
    (hs : u.catalog.Unshadowed scope t) : u.denote scope (u.catalog.nested t) = some t := by
  induction t generalizing ty with
  | plain decl =>
    obtain ⟨d, hd, harity⟩ := hu.consistent.fits (hu.consistent.shape?_of_reads_plain h)
    have hparam : scope.bind (u.paramNamed? (u.catalog.nameOf decl)) = none := by
      rw [Option.bind_eq_none_iff]
      intro owner ho
      exact paramNamed?_eq_none fun d hd => hs.plain owner ho d hd decl List.mem_cons_self
    rw [Catalog.nested, denote, hparam, hu.named?_nameOf hf hd, harity]
    rfl
  | param owner index =>
    obtain ⟨d, hd, hindex⟩ := hu.consistent.fits (hu.consistent.shape?_of_reads_param h)
    have hscope := hs.owner owner index List.mem_cons_self
    have hnamed := paramNamed?_paramNameOf hd hindex (hs.distinct owner hscope d hd)
    rw [Catalog.nested, denote, hscope, Option.bind_some, hnamed]
    rfl
  | applied decl ts ih =>
    obtain ⟨d, hd, harity, hne⟩ := hu.consistent.exists_catalog_of_reads h
    have hargs : u.denoteAll scope (u.catalog.nestedAll ts) = some ts := by
      have hall : ∀ t ∈ ts, u.denote scope (u.catalog.nested t) = some t := by
        intro t ht
        obtain ⟨a, ha⟩ := hu.consistent.exists_reads_of_mem h ht
        exact ih t ht ha (hs.arg ht)
      clear * - hall
      induction ts with
      | nil => rfl
      | cons t ts ih =>
        rw [Catalog.nestedAll, denoteAll, hall t List.mem_cons_self, Option.bind_some,
          ih fun t ht => hall t (List.mem_cons_of_mem _ ht)]
        rfl
    have hgeneric : d.isGeneric := by
      rw [Declaration.isGeneric, Bool.not_eq_true', List.isEmpty_eq_false_iff]
      rintro hnil
      rw [Declaration.arity, hnil] at harity
      exact hne (List.eq_nil_of_length_eq_zero harity.symm)
    rw [Catalog.nested, denote, hu.named?_nameOf hf hd, Option.bind_some, hargs, Option.bind_some,
      applied?, Ty.head?_own, Option.bind_some, hd, Option.bind_some, hgeneric, harity, beq_self_eq_true]
    rfl

/-- So does the expression with empty slots, in any scope. -/
theorem Valid.denote_expr (hu : u.Valid) (hf : u.catalog.Filed) (h : u.Reads ty t)
    (hs : (t.isGeneric ∧ ∃ decl arity, t = .own decl arity) ∨ u.catalog.Unshadowed scope t) :
    u.denote scope (u.catalog.expr t) = some t := by
  rcases u.catalog.expr_cases t with ⟨decl, ts, rfl, hown, hexpr, -⟩ | ⟨hnot, hexpr, -⟩
  · obtain ⟨d, hd, harity, -⟩ := hu.consistent.exists_catalog_of_reads h
    rw [hexpr, denote, hu.named?_nameOf hf hd, Option.bind_some, harity, ← hown]
    simp [Option.guard, Ty.isGeneric, Ty.args]
  · rw [hexpr]
    refine hu.denote_nested hf h (hs.resolve_left ?_)
    rintro ⟨hgeneric, decl, arity, heq⟩
    cases t with
    | plain decl => cases hgeneric
    | param owner index => cases hgeneric
    | applied decl' ts => exact hnot decl' ts rfl (Ty.eq_own_of_applied_eq heq)

end Universe

end Subtyping
