import Mathlib
import Subtyping.Limits
import Subtyping.TypeTable

/-!
# Types written out

A handle means something only together with its table. `Ty` is what a handle stands for with the
table read away: a tree of declarations and parameters. `TypeTable.typeAt` reads a handle, and in a
well-formed table (`TypeTable.WellFormed`) two handles with the same tree are the same handle
(`TypeTable.WellFormed.typeAt_injective`). Tables only grow (`TypeTable.Extends`), and a handle that
is known keeps its tree.
-/

namespace Subtyping

/-- A type written out. -/
inductive Ty where
  | plain (decl : DeclId)
  | applied (decl : DeclId) (args : List Ty)
  | param (owner : DeclId) (index : Nat)

namespace Ty

/-- Induction on a tree, with the arguments of an application all at once. -/
@[elab_as_elim, induction_eliminator]
theorem induct {motive : Ty → Prop} (plain : ∀ decl, motive (plain decl))
    (applied : ∀ decl args, (∀ a ∈ args, motive a) → motive (applied decl args))
    (param : ∀ owner index, motive (param owner index)) : ∀ t, motive t
  | .plain decl => plain decl
  | .applied decl args => applied decl args fun a _ => induct plain applied param a
  | .param owner index => param owner index

mutual

def decEq : (s t : Ty) → Decidable (s = t)
  | plain d, plain e =>
    if h : d = e then isTrue (h ▸ rfl) else isFalse fun he => h (plain.inj he)
  | applied d ss, applied e ts =>
    if h : d = e then
      match decEqAll ss ts with
      | isTrue hs => isTrue (h ▸ hs ▸ rfl)
      | isFalse hs => isFalse fun he => hs (applied.inj he).2
    else isFalse fun he => h (applied.inj he).1
  | param o i, param p j =>
    if h : o = p ∧ i = j then isTrue (h.1 ▸ h.2 ▸ rfl) else isFalse fun he => h (param.inj he)
  | plain _, applied _ _ => isFalse nofun
  | plain _, param _ _ => isFalse nofun
  | applied _ _, plain _ => isFalse nofun
  | applied _ _, param _ _ => isFalse nofun
  | param _ _, plain _ => isFalse nofun
  | param _ _, applied _ _ => isFalse nofun

def decEqAll : (ss ts : List Ty) → Decidable (ss = ts)
  | [], [] => isTrue rfl
  | s :: ss, t :: ts =>
    match decEq s t, decEqAll ss ts with
    | isTrue h, isTrue hs => isTrue (h ▸ hs ▸ rfl)
    | isFalse h, _ => isFalse fun he => h (List.cons.inj he).1
    | _, isFalse hs => isFalse fun he => hs (List.cons.inj he).2
  | [], _ :: _ => isFalse nofun
  | _ :: _, [] => isFalse nofun

end

instance : DecidableEq Ty := decEq

/-- Stands for handles that are not in a table; declarations are numbered from one. -/
def unknown : Ty := param ⟨0⟩ 0

/-! ## Reading a tree -/

def head? : Ty → Option DeclId
  | plain decl => some decl
  | applied decl _ => some decl
  | param _ _ => none

def args : Ty → List Ty
  | applied _ args => args
  | _ => []

def isParam : Ty → Bool
  | param _ _ => true
  | _ => false

def isGeneric : Ty → Bool
  | applied _ _ => true
  | _ => false

/-- The tree is an application of the given declaration. -/
def isBuiltFrom (decl : DeclId) : Ty → Bool
  | applied d _ => d == decl
  | _ => false

mutual

/-- Some parameter in the tree has a property of its owner. -/
def anyOwner (p : DeclId → Bool) : Ty → Bool
  | plain _ => false
  | applied _ args => anyOwnerIn p args
  | param owner _ => p owner

def anyOwnerIn (p : DeclId → Bool) : List Ty → Bool
  | [] => false
  | t :: ts => t.anyOwner p || anyOwnerIn p ts

end

theorem anyOwnerIn_eq_any (p : DeclId → Bool) (ts : List Ty) :
    anyOwnerIn p ts = ts.any (anyOwner p) := by
  induction ts with
  | nil => rfl
  | cons t ts ih => rw [anyOwnerIn, ih, List.any_cons]

/-- Some parameter occurs in the tree. -/
def isOpen (t : Ty) : Bool :=
  t.anyOwner fun _ => true

mutual

/-- How many applications are nested in the tree. -/
def nesting : Ty → Nat
  | plain _ => 0
  | applied _ args => nestingIn args + 1
  | param _ _ => 0

def nestingIn : List Ty → Nat
  | [] => 0
  | t :: ts => max t.nesting (nestingIn ts)

end

theorem nesting_le_of_mem {t : Ty} {ts : List Ty} (h : t ∈ ts) : t.nesting ≤ nestingIn ts := by
  induction h with
  | head ts => exact Nat.le_max_left _ _
  | tail t' _ ih => exact Nat.le_trans ih (Nat.le_max_right _ _)

theorem nesting_lt_of_mem {t : Ty} {ts : List Ty} (h : t ∈ ts) (decl : DeclId) :
    t.nesting < (applied decl ts).nesting :=
  Nat.lt_succ_of_le (nesting_le_of_mem h)

theorem lt_nestingIn_iff {n : Nat} {ts : List Ty} : n < nestingIn ts ↔ ∃ t ∈ ts, n < t.nesting := by
  induction ts with
  | nil => simp [nestingIn]
  | cons t ts ih => rw [nestingIn, lt_max_iff, ih, List.exists_mem_cons_iff]

/-- More than so many applications are nested in one if one less than that are in some argument. -/
theorem succ_lt_nesting_applied (decl : DeclId) (n : Nat) (ts : List Ty) :
    decide (n + 1 < (applied decl ts).nesting) = ts.any fun t => decide (n < t.nesting) := by
  rw [Bool.eq_iff_iff, decide_eq_true_iff, nesting, Nat.succ_lt_succ_iff, lt_nestingIn_iff,
    List.any_eq_true]
  simp only [decide_eq_true_iff]

theorem isBuiltFrom_iff {decl : DeclId} {t : Ty} :
    t.isBuiltFrom decl = true ↔ ∃ args, t = applied decl args := by
  cases t <;> simp [isBuiltFrom]

/-- A tree stands somewhere in another one. -/
inductive Part (s : Ty) : Ty → Prop where
  | refl : Part s s
  | arg {decl : DeclId} {args : List Ty} {a : Ty} (ha : a ∈ args) (h : Part s a) :
      Part s (applied decl args)

/-- The type that a declaration with `arity` parameters introduces. -/
def own (decl : DeclId) (arity : Nat) : Ty :=
  if arity = 0 then plain decl else applied decl ((List.range arity).map (param decl))

theorem head?_own (decl : DeclId) (arity : Nat) : (own decl arity).head? = some decl := by
  unfold own
  split_ifs <;> rfl

theorem nesting_own_le (decl : DeclId) (arity : Nat) : (own decl arity).nesting ≤ 1 := by
  have hin : ∀ l : List Nat, nestingIn (l.map (param decl)) = 0 := by
    intro l
    induction l with
    | nil => rfl
    | cons i l ih => rw [List.map_cons, nestingIn, ih]; rfl
  unfold own
  split_ifs
  · exact Nat.zero_le 1
  · rw [nesting, hin]

/-! ## Putting arguments for parameters -/

/-- Replaces the parameters of `owner` that lie under at most `levels` applications. -/
def fill (owner : DeclId) (args : List Ty) : (levels : Nat) → Ty → Ty
  | _, param o index => if o = owner then args[index]?.getD (param o index) else param o index
  | levels + 1, applied decl ts => applied decl (ts.map (fill owner args levels))
  | 0, applied decl ts => applied decl ts
  | _, plain decl => plain decl

/-- Replaces the parameters of `owner`, as deep as the library does. -/
def instantiate (t : Ty) (owner : DeclId) (args : List Ty) : Ty :=
  t.fill owner args Limits.instantiation.depth

theorem head?_fill {t : Ty} {decl : DeclId} (h : t.head? = some decl) (owner : DeclId)
    (args : List Ty) (levels : Nat) : (t.fill owner args levels).head? = some decl := by
  cases levels <;> cases t <;> simp_all [fill, head?]

theorem head?_instantiate {t : Ty} {decl : DeclId} (h : t.head? = some decl) (owner : DeclId)
    (args : List Ty) : (t.instantiate owner args).head? = some decl :=
  head?_fill h owner args _

end Ty

namespace TypeTable

variable {t t' : TypeTable} {ty ty' : Handle} {shape : Shape}

/-! ## Reading a handle -/

/-- The tree of a handle, cut off below the given number of levels. -/
def typeWithin (t : TypeTable) : (levels : Nat) → Handle → Ty
  | 0, _ => .unknown
  | levels + 1, ty =>
    match t.shape? ty with
    | some (.plain decl) => .plain decl
    | some (.applied decl args) => .applied decl (args.map (t.typeWithin levels))
    | some (.param owner index) => .param owner index
    | none => .unknown

/-- The tree of a handle. Arguments are older than what they are arguments of, so the number of a
handle bounds its depth. -/
def typeAt (t : TypeTable) (ty : Handle) : Ty :=
  t.typeWithin ty.num ty

/-- Every shape has its one handle, and arguments are known and older than their application. -/
structure WellFormed (t : TypeTable) : Prop where
  index_iff : ∀ shape ty, t.index[shape]? = some ty ↔ t.shape? ty = some shape
  older : ∀ {ty decl args}, t.shape? ty = some (.applied decl args) →
    ∀ a ∈ args, a.num < ty.num ∧ (t.shape? a).isSome

theorem num_pos_of_shape? (h : t.shape? ty = some shape) : 0 < ty.num := by
  unfold shape? at h
  split at h
  · cases h
  · omega

theorem num_le_size_of_shape? (h : t.shape? ty = some shape) : ty.num ≤ t.size := by
  unfold shape? at h
  split at h
  · cases h
  · obtain ⟨hn, -⟩ := Array.getElem?_eq_some_iff.1 h
    unfold size
    omega

namespace WellFormed

/-- Cutting off below the number of a handle cuts nothing off. -/
theorem typeWithin_eq_typeAt (wf : t.WellFormed) {levels : Nat} (h : (t.shape? ty).isSome)
    (hl : ty.num ≤ levels) : t.typeWithin levels ty = t.typeAt ty := by
  unfold typeAt
  generalize hn : ty.num = n at hl
  induction n using Nat.strongRecOn generalizing ty levels with
  | _ n ih =>
    obtain ⟨shape, hs⟩ := Option.isSome_iff_exists.1 h
    have hpos := num_pos_of_shape? hs
    obtain ⟨m, rfl⟩ : ∃ m, n = m + 1 := ⟨n - 1, by omega⟩
    obtain ⟨k, rfl⟩ : ∃ k, levels = k + 1 := ⟨levels - 1, by omega⟩
    cases shape with
    | plain decl => simp only [typeWithin, hs]
    | param owner index => simp only [typeWithin, hs]
    | applied decl args =>
      simp only [typeWithin, hs, Ty.applied.injEq, true_and]
      refine List.map_congr_left fun a ha => ?_
      obtain ⟨hlt, hsome⟩ := wf.older hs a ha
      rw [ih a.num (by omega) hsome rfl (show a.num ≤ k by omega),
        ih a.num (by omega) hsome rfl (show a.num ≤ m by omega)]

theorem typeAt_eq (wf : t.WellFormed) (h : t.shape? ty = some shape) :
    t.typeAt ty = match shape with
      | .plain decl => .plain decl
      | .applied decl args => .applied decl (args.map t.typeAt)
      | .param owner index => .param owner index := by
  have hpos := num_pos_of_shape? h
  obtain ⟨m, hm⟩ : ∃ m, ty.num = m + 1 := ⟨ty.num - 1, by omega⟩
  cases shape with
  | plain decl => simp only [TypeTable.typeAt, hm, typeWithin, h]
  | param owner index => simp only [TypeTable.typeAt, hm, typeWithin, h]
  | applied decl args =>
    rw [TypeTable.typeAt, hm]
    simp only [typeWithin, h, Ty.applied.injEq, true_and]
    refine List.map_congr_left fun a ha => ?_
    obtain ⟨hlt, hsome⟩ := wf.older h a ha
    exact wf.typeWithin_eq_typeAt hsome (by omega)

theorem typeAt_plain (wf : t.WellFormed) {decl : DeclId} (h : t.shape? ty = some (.plain decl)) :
    t.typeAt ty = .plain decl :=
  wf.typeAt_eq h

theorem typeAt_applied (wf : t.WellFormed) {decl : DeclId} {args : List Handle}
    (h : t.shape? ty = some (.applied decl args)) : t.typeAt ty = .applied decl (args.map t.typeAt) :=
  wf.typeAt_eq h

theorem typeAt_param (wf : t.WellFormed) {owner : DeclId} {index : Nat}
    (h : t.shape? ty = some (.param owner index)) : t.typeAt ty = .param owner index :=
  wf.typeAt_eq h

theorem eq_of_shape?_eq (wf : t.WellFormed) (h : t.shape? ty = some shape)
    (h' : t.shape? ty' = some shape) : ty = ty' :=
  Option.some.inj (((wf.index_iff _ _).2 h).symm.trans ((wf.index_iff _ _).2 h'))

/-- Known handles with the same tree are the same. -/
theorem typeAt_injective (wf : t.WellFormed) (h : (t.shape? ty).isSome) (h' : (t.shape? ty').isSome)
    (he : t.typeAt ty = t.typeAt ty') : ty = ty' := by
  generalize hn : ty.num = n
  induction n using Nat.strongRecOn generalizing ty ty' with
  | _ n ih =>
    obtain ⟨shape, hs⟩ := Option.isSome_iff_exists.1 h
    obtain ⟨shape', hs'⟩ := Option.isSome_iff_exists.1 h'
    have hshape : shape = shape' := by
      rw [wf.typeAt_eq hs, wf.typeAt_eq hs'] at he
      cases shape <;> cases shape' <;> simp only [Ty.plain.injEq, Ty.applied.injEq, Ty.param.injEq,
        reduceCtorEq] at he
      case plain.plain => rw [he]
      case param.param => rw [he.1, he.2]
      case applied.applied decl args decl' args' =>
        obtain ⟨rfl, hargs⟩ := he
        congr 1
        -- the arguments agree one by one, each being older than the application
        refine List.ext_getElem (by simpa using congrArg List.length hargs) fun i h₁ h₂ => ?_
        have hold := wf.older hs _ (List.getElem_mem h₁)
        have hold' := wf.older hs' _ (List.getElem_mem h₂)
        refine ih _ (by omega) hold.2 hold'.2 ?_ rfl
        have := congrArg (·[i]?) hargs
        simpa [h₁, h₂] using this
    subst hshape
    exact wf.eq_of_shape?_eq hs hs'

end WellFormed

/-! ## Growing tables -/

/-- All that is known in one table is known, and the same, in the other. -/
def Extends (t t' : TypeTable) : Prop :=
  ∀ ty shape, t.shape? ty = some shape → t'.shape? ty = some shape

theorem Extends.refl (t : TypeTable) : t.Extends t :=
  fun _ _ h => h

theorem Extends.trans {t'' : TypeTable} (h : t.Extends t') (h' : t'.Extends t'') :
    t.Extends t'' :=
  fun ty shape hs => h' ty shape (h ty shape hs)

theorem Extends.isSome (h : t.Extends t') (hs : (t.shape? ty).isSome) : (t'.shape? ty).isSome := by
  obtain ⟨shape, hs⟩ := Option.isSome_iff_exists.1 hs
  exact Option.isSome_iff_exists.2 ⟨shape, h ty shape hs⟩

/-- A known handle keeps its tree. -/
theorem Extends.typeAt_eq (h : t.Extends t') (wf : t.WellFormed) (wf' : t'.WellFormed)
    (hs : (t.shape? ty).isSome) : t'.typeAt ty = t.typeAt ty := by
  generalize hn : ty.num = n
  induction n using Nat.strongRecOn generalizing ty with
  | _ n ih =>
    obtain ⟨shape, hs⟩ := Option.isSome_iff_exists.1 hs
    rw [wf.typeAt_eq hs, wf'.typeAt_eq (h ty shape hs)]
    cases shape with
    | plain decl => rfl
    | param owner index => rfl
    | applied decl args =>
      simp only [Ty.applied.injEq, true_and]
      refine List.map_congr_left fun a ha => ?_
      obtain ⟨hlt, hsome⟩ := wf.older hs a ha
      exact ih _ (by omega) hsome rfl

theorem shape?_push (t : TypeTable) (shape : Shape) (index : Std.HashMap Shape Handle)
    (ty : Handle) :
    ({ shapes := t.shapes.push shape, index } : TypeTable).shape? ty =
      if ty = ⟨t.shapes.size + 1⟩ then some shape else t.shape? ty := by
  obtain ⟨num⟩ := ty
  cases num with
  | zero => simp [shape?]
  | succ n => simp [shape?, Array.getElem?_push]

theorem extends_intern (t : TypeTable) (shape : Shape) : t.Extends (t.intern shape).2 :=
  fun _ _ h => shape?_intern_of_eq_some h shape

/-- Interning adds no other shape. -/
theorem eq_or_of_shape?_intern {s : Shape} (h : (t.intern shape).2.shape? ty = some s) :
    t.shape? ty = some s ∨ s = shape := by
  unfold intern at h
  split at h
  · exact Or.inl h
  · rw [shape?_push] at h
    split_ifs at h
    · exact Or.inr (Option.some.inj h).symm
    · exact Or.inl h

/-- Every shape has its one handle. -/
def Indexed (t : TypeTable) : Prop :=
  ∀ shape ty, t.index[shape]? = some ty ↔ t.shape? ty = some shape

/-- Interning gives the handle of the shape. -/
theorem Indexed.shape?_intern (h : t.Indexed) (shape : Shape) :
    (t.intern shape).2.shape? (t.intern shape).1 = some shape := by
  unfold intern
  split
  · rename_i ty hty
    exact (h _ _).1 hty
  · simp [shape?]

/-- Interning keeps the one handle of every shape. -/
theorem Indexed.intern (h : t.Indexed) (shape : Shape) : (t.intern shape).2.Indexed := by
  unfold TypeTable.intern
  split
  · exact h
  · rename_i hnone
    intro s ty
    have hfresh : t.shape? ty ≠ some shape := fun hs => by
      rw [(h _ _).2 hs] at hnone
      cases hnone
    have hnew : t.shape? ⟨t.shapes.size + 1⟩ = none := by simp [shape?]
    rw [Std.HashMap.getElem?_insert, shape?_push]
    by_cases hs : shape = s
    · subst hs
      simp only [beq_self_eq_true, if_true, Option.some.injEq]
      constructor
      · rintro rfl
        rw [if_pos rfl]
      · intro hty
        split_ifs at hty with he
        · exact he.symm
        · exact absurd hty hfresh
    · rw [if_neg (by simpa using hs), h s ty]
      split_ifs with hty
      · subst hty
        simp [hnew, hs]
      · rfl

theorem WellFormed.shape?_intern (wf : t.WellFormed) (shape : Shape) :
    (t.intern shape).2.shape? (t.intern shape).1 = some shape :=
  Indexed.shape?_intern wf.index_iff shape

/-- Interning keeps a table well-formed when the arguments of the shape are known. -/
theorem WellFormed.intern (wf : t.WellFormed)
    (hargs : ∀ decl args, shape = .applied decl args → ∀ a ∈ args, (t.shape? a).isSome) :
    (t.intern shape).2.WellFormed := by
  refine ⟨Indexed.intern wf.index_iff shape, fun {ty decl args} h a ha => ?_⟩
  unfold TypeTable.intern at h ⊢
  split at h
  · exact wf.older h a ha
  · rw [shape?_push] at h
    have hext : ∀ b : Handle, (t.shape? b).isSome →
        b.num < t.shapes.size + 1 ∧
          (({ shapes := t.shapes.push shape, index := t.index.insert shape ⟨t.shapes.size + 1⟩ } :
            TypeTable).shape? b).isSome := by
      intro b hb
      obtain ⟨sb, hb⟩ := Option.isSome_iff_exists.1 hb
      have hle : b.num ≤ t.shapes.size := num_le_size_of_shape? hb
      refine ⟨by omega, ?_⟩
      have hne : b ≠ ⟨t.shapes.size + 1⟩ := by
        rintro rfl
        exact absurd hle (Nat.not_succ_le_self _)
      rw [shape?_push, if_neg hne, hb]
      rfl
    split_ifs at h with hty
    · subst hty
      exact hext a (hargs decl args (Option.some.inj h) a ha)
    · obtain ⟨hlt, hsome⟩ := wf.older h a ha
      exact ⟨hlt, (hext a hsome).2⟩

theorem shape?_empty (ty : Handle) : ({} : TypeTable).shape? ty = none := by
  unfold shape?
  split <;> simp

theorem WellFormed.empty : ({} : TypeTable).WellFormed :=
  ⟨fun shape ty => by simp [shape?_empty], fun h => by simp [shape?_empty] at h⟩

end TypeTable

end Subtyping
