import Subtyping.Proofs.Reachability

/-!
# Towers

A universe can be extended by a class on top of any class or struct without parameters
(`Universe.Built.exists_subclass`). So there are base chains of any length (`Universe.exists_tower`): a
`Tower` is a line of classes, each the base of the one before it. A walk along a base chain stops after
`Limits.hierarchy.depth` types, so the top of a tower that is higher is not assignable to its root
(`Universe.Tower.isAssignable_root`).
-/

namespace Subtyping

open Relation UniverseM

namespace Universe

variable {u v w : Universe} {decl : DeclId} {d : Declaration} {ty : Handle}

/-! ## Extending a universe -/

/-- Some name is free. -/
theorem exists_checkName_eq_ok (u : Universe) : ∃ name, u.checkName name = .ok () := by
  obtain ⟨name, hname⟩ := Infinite.exists_notMem_finset u.catalog.names.keys.toFinset
  rw [List.mem_toFinset, Std.HashMap.mem_keys] at hname
  exact ⟨name, checkName_eq_ok_iff.2 (getElem?_neg _ _ hname)⟩

/-- One declaration is new; nothing else has changed, and no type is lost. -/
structure Adds (u : Universe) (decl : DeclId) (d : Declaration) (v : Universe) : Prop where
  fresh : u.catalog.get? decl = none
  get? : ∀ x, v.catalog.get? x = if x = decl then some d else u.catalog.get? x
  table : u.table.Extends v.table

namespace Adds

variable {d₀ : Declaration} {x : DeclId} (h : u.Adds decl d v)
include h

theorem get?_self : v.catalog.get? decl = some d := by
  rw [h.get?, if_pos rfl]

theorem get?_of_eq_some (hx : u.catalog.get? x = some d₀) : v.catalog.get? x = some d₀ := by
  have hne : x ≠ decl := by
    rintro rfl
    rw [h.fresh] at hx
    cases hx
  rw [h.get?, if_neg hne, hx]

theorem head?_eq (hty : u.contains ty) : v.head? ty = u.head? ty := by
  obtain ⟨shape, hs⟩ := exists_shape?_of_contains hty
  rw [head?, head?, hs, show v.shape? ty = some shape from h.table ty shape hs]

/-- Old declarations keep their bases. -/
theorem declBase (hu : u.Consistent) (hv : v.Consistent) (hx : u.catalog.get? x = some d₀) :
    v.signature.declBase x = u.signature.declBase x := by
  show ((v.catalog.get? x).bind (·.base)).map v.typeAt = ((u.catalog.get? x).bind (·.base)).map u.typeAt
  rw [h.get?_of_eq_some hx, hx, Option.bind_some]
  cases hb : d₀.base with
  | none => rfl
  | some base =>
    have hbase : u.contains base := contains_of_isBaseKind (hu.base hx hb)
    exact congrArg some (h.table.typeAt_eq hu.table hv.table hbase)

/-- Nothing inherits from a declaration that is new and bare. -/
theorem not_inherits (hu : u.Consistent) (hd : d.Bare) : ¬ v.Inherits x decl := by
  intro hx
  obtain ⟨d', hd', ty, hty, hhead⟩ := inherits_iff.1 hx
  rw [h.get?] at hd'
  split_ifs at hd' with he
  · cases hd'
    rw [hd.base, hd.interfaces] at hty
    rcases hty with hty | hty <;> cases hty
  · have hknown : u.contains ty := by
      rcases hty with hb | hi
      · exact contains_of_isBaseKind (hu.base hd' hb)
      · exact contains_of_isInterface (hu.interfaces hd' ty hi)
    rw [h.head?_eq hknown] at hhead
    obtain ⟨d₀, hd₀⟩ := hu.exists_get?_of_head? hhead
    rw [h.fresh] at hd₀
    cases hd₀

end Adds

/-- A class without parameters, with a base or without. -/
def simpleClass (name : String) (base : Option Handle) : Declaration :=
  { kind := .classKind, name, base }

/-- A class can be declared at any time. -/
theorem Built.exists_class (hu : u.Built) :
    ∃ v decl name, v.Built ∧ u.Adds decl (simpleClass name none) v := by
  obtain ⟨name, hname⟩ := u.exists_checkName_eq_ok
  let d := simpleClass name none
  have hbuilt : Built ((Declaring.declare d).run ⟨u, {}⟩).2.univ :=
    @Built.step u (.declare d) hu (by rintro _ ⟨⟩) {}
  obtain ⟨ty, -, h⟩ := hu.valid.run_declare d {} hname
  refine ⟨_, _, name, hbuilt, u.catalog.get?_add_self d, fun x => ?_, h.table⟩
  rw [h.catalog]
  exact u.catalog.get?_add d x

/-- A class that nothing inherits from can get any class or struct without parameters as its base. -/
theorem Built.setBase {base : Handle} {name : String} (hu : u.Built)
    (hd : u.catalog.get? decl = some (simpleClass name none)) (hkind : u.isBaseKind base)
    (hclosed : u.isOpen base = false) (hleaf : ∀ x, ¬ u.Inherits x decl)
    (hne : u.head? base ≠ some decl) : (u.withBase decl base).dropClosures.Built := by
  obtain ⟨declared, hown, hr⟩ := hu.valid.owned hd
  have hbuilt : Built ((Declaring.setBase declared base).run ⟨u, {}⟩).2.univ := by
    refine @Built.step u (.setBase declared base) hu (fun ty hty => ?_) {}
    rcases List.mem_pair.1 hty with rfl | rfl
    · exact hr.1
    · exact contains_of_isBaseKind hkind
  have hscope : u.anyOwner (· != decl) base = false := by
    refine hu.valid.grounded.anyOwner_ne_eq_false_iff.2 fun owner index hm => ?_
    have hopen : u.isOpen base := (hu.valid.grounded.anyOwner_iff _ base).2 ⟨owner, index, hm, rfl⟩
    rw [hclosed] at hopen
    cases hopen
  have hany : (u.head? base).any (u.inheritsFrom · decl) = false := by
    cases hb : u.head? base with
    | none => rfl
    | some parent =>
      rw [Option.any_some, ← Bool.not_eq_true]
      intro h
      rcases ReflTransGen.cases_tail (reaches_of_inheritsFrom h) with heq | ⟨x, -, hx⟩
      · exact hne (heq ▸ hb)
      · exact hleaf x hx
  rw [Declaring.run_setBase] at hbuilt
  dsimp only at hbuilt
  rwa [hu.valid.grounded.checkBase_eq hown hd rfl hkind hscope, hany] at hbuilt

/-- A class can be put on top of any class or struct without parameters. -/
theorem Built.exists_subclass {base : Handle} (hu : u.Built) (hkind : u.isBaseKind base)
    (hclosed : u.isOpen base = false) :
    ∃ v decl name, v.Built ∧ u.Adds decl (simpleClass name (some base)) v := by
  have hc := hu.valid.consistent
  have hbase := contains_of_isBaseKind hkind
  obtain ⟨v, decl, name, hv, hadds⟩ := hu.exists_class
  have hvc := hv.valid.consistent
  obtain ⟨k, hk⟩ := exists_kind?_of_isBaseKind hkind
  obtain ⟨parent, hparent, hkparent⟩ := Option.bind_eq_some_iff.1 hk
  obtain ⟨p, hp, hpk⟩ := Option.map_eq_some_iff.1 hkparent
  have hkind' : v.isBaseKind base := by
    rwa [isBaseKind, kind?, hadds.head?_eq hbase, hparent, Option.bind_some, hadds.get?_of_eq_some hp,
      Option.map_some, hpk, ← hk]
  have hclosed' : v.isOpen base = false := by
    have hr : v.Reads base (u.typeAt base) :=
      ⟨hadds.table.isSome hbase, hadds.table.typeAt_eq hc.table hvc.table hbase⟩
    rw [hvc.isOpen_of_reads hr, ← hc.isOpen_of_reads (reads_typeAt hbase), hclosed]
  have hne : v.head? base ≠ some decl := by
    rw [hadds.head?_eq hbase, hparent]
    rintro ⟨⟩
    rw [hadds.fresh] at hp
    cases hp
  have hleaf : ∀ x, ¬ v.Inherits x decl := fun x =>
    hadds.not_inherits hc (Declaration.bare_stripped (simpleClass name none))
  refine ⟨_, decl, name, hv.setBase hadds.get?_self hkind' hclosed' hleaf hne, hadds.fresh,
    fun x => ?_, hadds.table⟩
  show (v.catalog.modify decl _).get? x = _
  rw [Catalog.get?_modify, hadds.get?]
  by_cases hx : x = decl
  · rw [if_pos hx.symm, if_pos hx, if_pos hx]
    rfl
  · rw [if_neg (Ne.symm hx), if_neg hx, if_neg hx]

/-! ## Lines of classes -/

/-- A line of classes without parameters, each the base of the one before it. The last has no base. -/
structure Tower (u : Universe) (line : List DeclId) : Prop where
  built : u.Built
  classes : ∀ decl ∈ line, ∃ name base, u.catalog.get? decl = some (simpleClass name base)
  linked : line.IsChain fun decl parent => u.signature.declBase decl = some (.plain parent)
  root : ∀ decl ∈ line.getLast?, u.signature.declBase decl = none

namespace Tower

variable {top root : DeclId} {line : List DeclId}

/-- Every class of a tower has its type. -/
theorem exists_reads (h : u.Tower line) (hdecl : decl ∈ line) :
    ∃ ty, u.Reads ty (.plain decl) ∧ u.kind? ty = some .classKind := by
  obtain ⟨name, base, hd⟩ := h.classes decl hdecl
  obtain ⟨ty, -, hr⟩ := h.built.valid.owned hd
  have hr : u.Reads ty (.plain decl) := hr
  refine ⟨ty, hr, ?_⟩
  rw [kind?, h.built.valid.consistent.head?_of_reads hr, Ty.head?, Option.bind_some, hd]
  rfl

/-- A tower can be made higher. -/
theorem exists_higher (h : u.Tower (top :: line)) : ∃ v decl, Tower v (decl :: top :: line) := by
  have hc := h.built.valid.consistent
  obtain ⟨base, hr, hkind⟩ := h.exists_reads List.mem_cons_self
  have hbase : u.isBaseKind base := by rw [isBaseKind, hkind]
  obtain ⟨v, decl, name, hv, hadds⟩ := h.built.exists_subclass hbase (hc.isOpen_of_reads hr)
  have hkeep : ∀ x ∈ top :: line, v.signature.declBase x = u.signature.declBase x := by
    intro x hx
    obtain ⟨_, _, hd⟩ := h.classes x hx
    exact hadds.declBase hc hv.valid.consistent hd
  have hself : v.signature.declBase decl = some (.plain top) := by
    show ((v.catalog.get? decl).bind (·.base)).map v.typeAt = _
    rw [hadds.get?_self]
    refine congrArg some ?_
    rw [← hr.2]
    exact hadds.table.typeAt_eq hc.table hv.valid.consistent.table hr.1
  refine ⟨v, decl, hv, fun x hx => ?_, .cons_cons hself ?_, fun x hx => ?_⟩
  · rcases List.mem_cons.1 hx with rfl | hx
    · exact ⟨name, some base, hadds.get?_self⟩
    · obtain ⟨name', base', hd⟩ := h.classes x hx
      exact ⟨name', base', hadds.get?_of_eq_some hd⟩
  · refine h.linked.imp_of_mem_imp fun x y hx _ hxy => ?_
    rw [hkeep x hx, hxy]
  · rw [List.getLast?_cons_cons] at hx
    rw [hkeep x (List.mem_of_getLast? hx), h.root x hx]

end Tower

/-- There are towers of any height. -/
theorem exists_tower (n : Nat) : ∃ u top line, line.length = n ∧ Tower u (top :: line) := by
  induction n with
  | zero =>
    obtain ⟨v, decl, name, hv, hadds⟩ := Built.exists_class .empty
    refine ⟨v, decl, [], rfl, hv, fun x hx => ?_, .singleton _, fun x hx => ?_⟩
    · obtain rfl := List.mem_singleton.1 hx
      exact ⟨name, none, hadds.get?_self⟩
    · cases hx
      show ((v.catalog.get? decl).bind (·.base)).map v.typeAt = _
      rw [hadds.get?_self]
      rfl
  | succ n ih =>
    obtain ⟨u, top, line, hlen, h⟩ := ih
    obtain ⟨v, decl, hv⟩ := h.exists_higher
    exact ⟨v, decl, top :: line, congrArg (· + 1) hlen, hv⟩

end Universe

/-! ## Walks along a tower -/

namespace Signature

variable {S : Signature} {t x : Ty}

/-- A chain ends where there is no base. -/
theorem length_chainFrom_le_of_mem {steps : Nat} (hx : x ∈ S.chainFrom steps t)
    (hend : S.baseOf x = none) (steps' : Nat) : (S.chainFrom steps' t).length ≤ steps := by
  induction steps generalizing t steps' with
  | zero => cases hx
  | succ n ih =>
    cases steps' with
    | zero => exact Nat.zero_le _
    | succ m =>
      rw [chainFrom] at hx ⊢
      cases hb : S.baseOf t with
      | none => exact Nat.succ_le_succ (Nat.zero_le _)
      | some b =>
        rw [hb] at hx
        rcases List.mem_cons.1 hx with rfl | hx
        · rw [hend] at hb
          cases hb
        · exact Nat.succ_le_succ (ih hx m)

/-- Along a line of bases, a walk does not end before the line does. -/
theorem length_chainFrom_of_isChain {top : DeclId} {line : List DeclId} {steps : Nat}
    (h : (top :: line).IsChain fun decl parent => S.declBase decl = some (.plain parent))
    (hsteps : steps ≤ line.length + 1) : (S.chainFrom steps (.plain top)).length = steps := by
  induction steps generalizing top line with
  | zero => rfl
  | succ n ih =>
    rw [chainFrom]
    cases line with
    | nil =>
      obtain rfl : n = 0 := by simpa using hsteps
      cases S.baseOf (.plain top) <;> rfl
    | cons parent line =>
      obtain ⟨hbase, hline⟩ := List.isChain_cons_cons.1 h
      rw [show S.baseOf (.plain top) = some (.plain parent) from hbase]
      exact congrArg (· + 1) (ih hline (Nat.le_of_succ_le_succ hsteps))

end Signature

namespace Universe.Tower

variable {u : Universe} {top root : DeclId} {line : List DeclId}

/-- Going up from the top of a tower, its root is reached. -/
theorem reaches_root (h : u.Tower (top :: line)) (hroot : (top :: line).getLast? = some root) :
    ReflTransGen u.signature.Above (.plain top) (.plain root) := by
  have hlast : (top :: line).getLast (List.cons_ne_nil _ _) = root :=
    Option.some.inj ((List.getLast?_eq_some_getLast _).symm.trans hroot)
  exact (List.relationReflTransGen_of_exists_isChain_cons line h.linked hlast).lift Ty.plain
    fun _ _ hbase => Or.inl hbase

/-- The root of a tower that is higher than a walk goes is out of reach. -/
theorem isAssignable_root (h : u.Tower (top :: line)) (hroot : (top :: line).getLast? = some root)
    (hlen : Limits.hierarchy.depth ≤ line.length) :
    u.signature.isAssignable (.plain top) (.plain root) = false := by
  have hend : u.signature.baseOf (.plain root) = none := h.root root hroot
  have hnot : .plain root ∉ u.signature.chain (.plain top) := by
    intro hmem
    have hle := Signature.length_chainFrom_le_of_mem hmem hend (Limits.hierarchy.depth + 1)
    rw [Signature.length_chainFrom_of_isChain h.linked (Nat.succ_le_succ hlen)] at hle
    exact Nat.not_succ_le_self _ hle
  have hne : (Ty.plain top == .plain root) = false := by
    refine beq_false_of_ne fun heq => hnot ?_
    rw [heq]
    exact Signature.mem_chainFrom_self _ _
  obtain ⟨ty, hr, hkind⟩ := h.exists_reads (List.mem_of_getLast? hroot)
  rw [h.built.valid.consistent.kind?_of_reads hr] at hkind
  rw [Signature.isAssignable, hne, hkind, Bool.false_or]
  exact Bool.eq_false_iff.2 fun hmem => hnot (List.contains_iff_mem.1 hmem)

end Universe.Tower

end Subtyping
