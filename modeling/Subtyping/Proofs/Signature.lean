import Subtyping.Proofs.Ty
import Subtyping.Universe.Declare

/-!
# Signatures

A `Signature` is what the declarations of a universe say, with all types written out. The
hierarchy of types is a matter of the signature alone: bases (`Signature.baseOf`), declared
interfaces (`Signature.declaredBy`), the base chain (`Signature.chain`), the closure of interfaces
(`Signature.closureOf`) and native assignability (`Signature.isAssignable`) are functions on trees.

The closure is collected over a bounded number of generations. A ranking of the declarations
(`Signature.Ranking`) bounds how many there can be, so the bound may be raised without changing the
closure (`Signature.collect_succ`).
-/

namespace Subtyping

/-- What declarations say, by the number of a declaration and the position of a parameter. -/
structure Signature where
  /-- How many declarations there are. -/
  size : Nat
  kind? : DeclId → Option Kind
  declBase : DeclId → Option Ty
  declInterfaces : DeclId → List Ty
  bounds : DeclId → Nat → List Ty

namespace Signature

variable (S : Signature)

/-! ## Kinds -/

def kindOf? (t : Ty) : Option Kind :=
  t.head?.bind S.kind?

def isInterface (t : Ty) : Bool :=
  S.kindOf? t == some .interfaceKind

def isBaseKind (t : Ty) : Bool :=
  match S.kindOf? t with
  | some .classKind | some .structKind => true
  | some .interfaceKind | none => false

/-! ## The hierarchy -/

/-- The direct base; for a parameter, its first bound that is a class or struct. -/
def baseOf : Ty → Option Ty
  | .plain decl => S.declBase decl
  | .applied decl args => (S.declBase decl).map (·.instantiate decl args)
  | .param owner index => (S.bounds owner index).find? S.isBaseKind

/-- The declared interfaces; for a parameter, its bounds that are interfaces. -/
def declaredBy : Ty → List Ty
  | .plain decl => S.declInterfaces decl
  | .applied decl args => (S.declInterfaces decl).map (·.instantiate decl args)
  | .param owner index => (S.bounds owner index).filter S.isInterface

/-- A type and its bases, at most `steps` of them. -/
def chainFrom : (steps : Nat) → Ty → List Ty
  | 0, _ => []
  | steps + 1, t =>
    match S.baseOf t with
    | some base => t :: chainFrom steps base
    | none => [t]

/-- A type followed by its base, the base of that, and so on, as far as the walk goes. -/
def chain (t : Ty) : List Ty :=
  S.chainFrom Limits.hierarchy.depth t

/-- Adds an interface and all that it inherits to those seen, going at most `generations` up. -/
def collect : (generations : Nat) → (seen : List Ty) → Ty → List Ty
  | 0, seen, _ => seen
  | generations + 1, seen, interface =>
    if interface ∈ seen then seen
    else (S.declaredBy interface).foldl (collect generations) (seen ++ [interface])

/-- All interfaces of a type, in the order in which they are enumerated. -/
def closureOf (t : Ty) : List Ty :=
  (S.chain t).reverse.foldl
    (fun seen ancestor => (S.declaredBy ancestor).foldl (S.collect S.size) seen) []

/-- Native assignability. -/
def isAssignable (source target : Ty) : Bool :=
  source == target ||
    match S.kindOf? target with
    | some .interfaceKind => (S.closureOf source).contains target
    | some .classKind | some .structKind => (S.chain source).contains target
    | none => false

/-! ## Generations -/

/-- A rank for every declaration that falls from a declaration to the interfaces that it lists.
All interfaces that are listed or bound a parameter are headed by a ranked declaration. -/
structure Ranking (rank : DeclId → Nat) : Prop where
  lt_of_mem : ∀ {decl t}, t ∈ S.declInterfaces decl →
    ∃ parent, t.head? = some parent ∧ rank parent < rank decl
  lt_size : ∀ {t decl}, S.isInterface t → t.head? = some decl → rank decl < S.size
  isInterface_of_mem : ∀ {decl t}, t ∈ S.declInterfaces decl → S.isInterface t

variable {S} {rank : DeclId → Nat}

theorem head?_of_isInterface {t : Ty} (h : S.isInterface t) : ∃ decl, t.head? = some decl := by
  cases t with
  | plain decl => exact ⟨decl, rfl⟩
  | applied decl args => exact ⟨decl, rfl⟩
  | param owner index => simp [isInterface, kindOf?, Ty.head?] at h

theorem Ranking.lt_of_mem_declaredBy (hr : S.Ranking rank) {t i : Ty} {decl : DeclId}
    (ht : t.head? = some decl) (hi : i ∈ S.declaredBy t) :
    ∃ parent, i.head? = some parent ∧ rank parent < rank decl := by
  cases t with
  | plain d =>
    obtain rfl : d = decl := Option.some.inj ht
    exact hr.lt_of_mem hi
  | applied d args =>
    obtain rfl : d = decl := Option.some.inj ht
    obtain ⟨j, hj, rfl⟩ := List.mem_map.1 hi
    obtain ⟨parent, hp, hlt⟩ := hr.lt_of_mem hj
    exact ⟨parent, Ty.head?_instantiate hp d args, hlt⟩
  | param owner index => cases ht

/-- Every interface that a type declares is headed by a declaration whose rank is within the
number of declarations. -/
theorem Ranking.lt_size_of_mem_declaredBy (hr : S.Ranking rank) {t i : Ty}
    (hi : i ∈ S.declaredBy t) : ∃ parent, i.head? = some parent ∧ rank parent < S.size := by
  cases t with
  | plain d =>
    obtain ⟨parent, hp, -⟩ := hr.lt_of_mem hi
    exact ⟨parent, hp, hr.lt_size (hr.isInterface_of_mem hi) hp⟩
  | applied d args =>
    obtain ⟨j, hj, rfl⟩ := List.mem_map.1 hi
    obtain ⟨parent, hp, -⟩ := hr.lt_of_mem hj
    exact ⟨parent, Ty.head?_instantiate hp d args, hr.lt_size (hr.isInterface_of_mem hj) hp⟩
  | param owner index =>
    have hint := (List.mem_filter.1 hi).2
    obtain ⟨parent, hp⟩ := head?_of_isInterface hint
    exact ⟨parent, hp, hr.lt_size hint hp⟩

/-- Beyond the rank of an interface, one more generation collects nothing more. -/
theorem collect_succ (hr : S.Ranking rank) {generations : Nat} {t : Ty} {decl : DeclId}
    (ht : t.head? = some decl) (hlt : rank decl < generations) (seen : List Ty) :
    S.collect (generations + 1) seen t = S.collect generations seen t := by
  induction generations generalizing seen t decl with
  | zero => omega
  | succ n ih =>
    rw [collect, collect]
    split_ifs with hmem
    · rfl
    · refine List.foldl_ext _ _ _ fun seen i hi => ?_
      obtain ⟨parent, hp, hlt'⟩ := hr.lt_of_mem_declaredBy ht hi
      exact ih hp (by omega) seen

end Signature

namespace Universe

/-- The type at a handle. -/
def typeAt (u : Universe) (ty : Handle) : Ty :=
  u.table.typeAt ty

/-- What the declarations of a universe say. -/
def signature (u : Universe) : Signature where
  size := u.catalog.size
  kind? decl := (u.catalog.get? decl).map (·.kind)
  declBase decl := ((u.catalog.get? decl).bind (·.base)).map u.typeAt
  declInterfaces decl := (((u.catalog.get? decl).map (·.interfaces)).getD []).map u.typeAt
  bounds owner index := (((u.parameter? owner index).map (·.constraints)).getD []).map u.typeAt

end Universe

end Subtyping
