import Subtyping.Proofs.Signature

/-!
# The substitution relation

`Signature.Sub a b` says that `a` can stand where `b` is expected. It is the greatest relation that
`Signature.Follows` justifies: every pair in it follows, in one step, from other pairs in it.
`Signature.Under X` is the same relation when the pairs of `X` need no justification; a search that
assumes its pairs in progress establishes that much. What holds under a pair and is used to justify
that very pair holds without it (`Signature.under_of_justified`).

`Signature.res a b` is the closed form of `b` that `a` stands for. It is there exactly when `a` can
stand for `b` (`Signature.isSome_res_iff`).
-/

namespace Subtyping

namespace Signature

variable (S : Signature)

/-! ## One step -/

/-- An argument is accepted for a bound, or for a target that is not a parameter. -/
def Accepts (R : Ty → Ty → Prop) (arg bound : Ty) : Prop :=
  arg = bound ∨ S.isAssignable arg bound ∨ R arg bound

/-- An argument meets the target's argument: all bounds of a parameter, or else the target. -/
def Meets (R : Ty → Ty → Prop) (arg : Ty) : Ty → Prop
  | .param owner index => ∀ bound ∈ S.bounds owner index, S.Accepts R arg bound
  | target => S.Accepts R arg target

/-- A candidate is built from a declaration, and its arguments meet those given. -/
def Suits (R : Ty → Ty → Prop) (decl : DeclId) (args : List Ty) (c : Ty) : Prop :=
  c.isBuiltFrom decl ∧ List.Forall₂ (S.Meets R) c.args args

/-- A pair follows from pairs in `R`. -/
inductive Follows (R : Ty → Ty → Prop) : Ty → Ty → Prop where
  | refl (a : Ty) : Follows R a a
  /-- Without arguments in the target, a source without parameters is natively assignable. -/
  | native {a b : Ty} (hb : b.isGeneric = false) (ha : a.isOpen = false)
      (h : S.isAssignable a b) : Follows R a b
  /-- The base chain of the source has a type built from the generic class or struct. -/
  | base {a c : Ty} {decl : DeclId} {args : List Ty} (hkind : S.isBaseKind (.applied decl args))
      (hc : c ∈ S.chain a) (hdecl : c.isBuiltFrom decl) : Follows R a (.applied decl args)
  /-- The source or one of its interfaces is built from the generic interface, and its arguments
  meet those of the target. -/
  | interface {a c : Ty} {decl : DeclId} {args : List Ty}
      (hkind : S.isInterface (.applied decl args)) (hc : c ∈ a :: S.closureOf a)
      (hsuits : S.Suits R decl args c) : Follows R a (.applied decl args)

variable {S} {R R' X Y : Ty → Ty → Prop} {a b c : Ty}

theorem Accepts.mono (h : ∀ x y, R x y → R' x y) (ha : S.Accepts R a b) : S.Accepts R' a b :=
  ha.imp_right (Or.imp_right (h a b))

theorem Meets.mono (h : ∀ x y, R x y → R' x y) (hm : S.Meets R a b) : S.Meets R' a b := by
  cases b with
  | param owner index => exact fun bound hb => (hm bound hb).mono h
  | plain decl => exact Accepts.mono h hm
  | applied decl args => exact Accepts.mono h hm

theorem meets_iff_accepts (hb : b.isParam = false) : S.Meets R a b ↔ S.Accepts R a b := by
  cases b with
  | param owner index => cases hb
  | plain decl => rfl
  | applied decl args => rfl

theorem Suits.mono {decl : DeclId} {args : List Ty} (h : ∀ x y, R x y → R' x y)
    (hs : S.Suits R decl args c) : S.Suits R' decl args c :=
  ⟨hs.1, hs.2.imp fun _ _ => Meets.mono h⟩

theorem Follows.mono (h : ∀ x y, R x y → R' x y) (hf : S.Follows R a b) : S.Follows R' a b := by
  cases hf with
  | refl => exact .refl a
  | native hb ha h => exact .native hb ha h
  | base hkind hc hdecl => exact .base hkind hc hdecl
  | interface hkind hc hsuits => exact .interface hkind hc (hsuits.mono h)

/-! ## All steps -/

variable (S) in
/-- A pair belongs to a relation all of whose pairs follow from it, those in `X` excepted. -/
def Under (X : Ty → Ty → Prop) (a b : Ty) : Prop :=
  ∃ R : Ty → Ty → Prop, (∀ x y, R x y → X x y ∨ S.Follows R x y) ∧ R a b

variable (S) in
/-- The substitution relation: the greatest one all of whose pairs follow from it. -/
def Sub (a b : Ty) : Prop :=
  ∃ R : Ty → Ty → Prop, (∀ x y, R x y → S.Follows R x y) ∧ R a b

theorem under_of (h : X a b) : S.Under X a b :=
  ⟨X, fun _ _ h => Or.inl h, h⟩

theorem Under.cases (h : S.Under X a b) : X a b ∨ S.Follows (S.Under X) a b := by
  obtain ⟨R, hR, hab⟩ := h
  exact (hR a b hab).imp_right fun hf => hf.mono fun x y hxy => ⟨R, hR, hxy⟩

/-- Assumptions that are justified by what holds under them can be dropped. -/
theorem under_of_justified (hY : ∀ x y, Y x y → X x y ∨ S.Follows (S.Under Y) x y)
    (h : S.Under Y a b) : S.Under X a b :=
  ⟨S.Under Y, fun x y hxy => hxy.cases.elim (hY x y) Or.inr, h⟩

theorem Under.mono (hX : ∀ x y, X x y → Y x y) (h : S.Under X a b) : S.Under Y a b :=
  under_of_justified (fun x y hxy => Or.inl (hX x y hxy)) h

theorem under_of_follows (h : S.Follows (S.Under X) a b) : S.Under X a b := by
  refine ⟨fun x y => S.Under X x y ∨ (x = a ∧ y = b), ?_, Or.inr ⟨rfl, rfl⟩⟩
  rintro x y (hxy | ⟨rfl, rfl⟩)
  · exact hxy.cases.imp_right (Follows.mono fun _ _ => Or.inl)
  · exact Or.inr (h.mono fun _ _ => Or.inl)

theorem sub_iff_under : S.Sub a b ↔ S.Under (fun _ _ => False) a b := by
  simp only [Sub, Under, false_or]

/-- A pair that follows when it is itself assumed holds without that. -/
theorem under_of_follows_self
    (h : S.Follows (S.Under fun x y => X x y ∨ (x = a ∧ y = b)) a b) : S.Under X a b := by
  refine under_of_justified ?_ (under_of_follows h)
  rintro x y (hxy | ⟨rfl, rfl⟩)
  · exact Or.inl hxy
  · exact Or.inr h

theorem sub_iff_follows : S.Sub a b ↔ S.Follows S.Sub a b := by
  have hsub : S.Sub = S.Under fun _ _ => False := by
    funext x y
    exact propext sub_iff_under
  rw [hsub]
  exact ⟨fun h => h.cases.resolve_left id, under_of_follows⟩

theorem Sub.under (h : S.Sub a b) : S.Under X a b :=
  (sub_iff_under.1 h).mono fun _ _ h => h.elim

/-- What holds under pairs of the relation holds. -/
theorem Under.sub (hX : ∀ x y, X x y → S.Sub x y) (h : S.Under X a b) : S.Sub a b := by
  refine sub_iff_under.2 (under_of_justified (fun x y hxy => Or.inr ?_) h)
  exact (sub_iff_follows.1 (hX x y hxy)).mono fun _ _ h => h.under

/-! ## The resolved type -/

section Res

variable (S : Signature)

open scoped Classical in
/-- The first of the given candidates that suits. -/
noncomputable def firstSuited (decl : DeclId) (args candidates : List Ty) : Option Ty :=
  candidates.find? fun c => S.Suits S.Sub decl args c

/-- The first candidate that suits, out of the source and then its interfaces. -/
noncomputable def candidate? (a : Ty) (decl : DeclId) (args : List Ty) : Option Ty :=
  S.firstSuited decl args (a :: S.closureOf a)

mutual

/-- The closed form of a target that a source stands for. -/
noncomputable def res (a : Ty) : (b : Ty) → Option Ty
  | .applied decl args =>
    if a = .applied decl args then some a
    else if S.isInterface (.applied decl args) then
      (S.candidate? a decl args).map fun c => .applied decl (resArgs c.args args)
    else if S.isBaseKind (.applied decl args) then (S.chain a).find? (·.isBuiltFrom decl)
    else none
  | b => if a = b ∨ a.isOpen = false ∧ S.isAssignable a b then some a else none

/-- The arguments that result: at a parameter, the argument as it is; elsewhere, the argument if it
is natively assignable, or else what it stands for. -/
noncomputable def resArgs : (args targets : List Ty) → List Ty
  | arg :: args, target :: targets =>
    (if target.isParam ∨ arg = target ∨ S.isAssignable arg target then arg
      else (res arg target).getD arg) :: resArgs args targets
  | _, _ => []

end

/-- The argument that results at one position. -/
noncomputable def resArg (arg target : Ty) : Ty :=
  if target.isParam ∨ arg = target ∨ S.isAssignable arg target then arg
  else (S.res arg target).getD arg

theorem resArgs_cons (arg target : Ty) (args targets : List Ty) :
    S.resArgs (arg :: args) (target :: targets) = S.resArg arg target :: S.resArgs args targets := by
  rw [resArgs, resArg]

theorem res_of_isGeneric_eq_false (a : Ty) {b : Ty} (hb : b.isGeneric = false) :
    S.res a b = if a = b ∨ a.isOpen = false ∧ S.isAssignable a b then some a else none := by
  rw [res]
  rintro decl args rfl
  cases hb

theorem res_self (a : Ty) : S.res a a = some a := by
  cases a with
  | applied decl args => rw [res, if_pos rfl]
  | plain decl => rw [res_of_isGeneric_eq_false S _ rfl, if_pos (Or.inl rfl)]
  | param owner index => rw [res_of_isGeneric_eq_false S _ rfl, if_pos (Or.inl rfl)]

end Res

/-! ## The relation, target by target -/

variable {decl : DeclId} {args : List Ty}

theorem isBaseKind_eq_false_of_isInterface (h : S.isInterface b) : S.isBaseKind b = false := by
  simp only [isInterface, beq_iff_eq] at h
  simp [isBaseKind, h]

theorem follows_iff_of_isGeneric_eq_false (hb : b.isGeneric = false) :
    S.Follows R a b ↔ a = b ∨ a.isOpen = false ∧ S.isAssignable a b := by
  constructor
  · intro h
    cases h with
    | refl => exact Or.inl rfl
    | native _ ha h => exact Or.inr ⟨ha, h⟩
    | base => cases hb
    | interface => cases hb
  · rintro (rfl | ⟨ha, h⟩)
    · exact .refl a
    · exact .native hb ha h

theorem follows_iff_of_isBaseKind (hk : S.isBaseKind (.applied decl args))
    (hne : a ≠ .applied decl args) :
    S.Follows R a (.applied decl args) ↔ ∃ c ∈ S.chain a, c.isBuiltFrom decl := by
  constructor
  · intro h
    cases h with
    | refl => exact absurd rfl hne
    | native hb => cases hb
    | base _ hc hdecl => exact ⟨_, hc, hdecl⟩
    | interface hkind =>
      rw [isBaseKind_eq_false_of_isInterface hkind] at hk
      cases hk
  · rintro ⟨c, hc, hdecl⟩
    exact .base hk hc hdecl

theorem follows_iff_of_isInterface (hk : S.isInterface (.applied decl args))
    (hne : a ≠ .applied decl args) :
    S.Follows R a (.applied decl args) ↔
      ∃ c ∈ a :: S.closureOf a, S.Suits R decl args c := by
  constructor
  · intro h
    cases h with
    | refl => exact absurd rfl hne
    | native hb => cases hb
    | base hkind =>
      rw [isBaseKind_eq_false_of_isInterface hk] at hkind
      cases hkind
    | interface _ hc hsuits => exact ⟨_, hc, hsuits⟩
  · rintro ⟨c, hc, hsuits⟩
    exact .interface hk hc hsuits

theorem isSome_firstSuited_iff {candidates : List Ty} :
    (S.firstSuited decl args candidates).isSome ↔
      ∃ c ∈ candidates, S.Suits S.Sub decl args c := by
  simp only [firstSuited, List.find?_isSome, decide_eq_true_eq]

theorem firstSuited_cons_of_suits {candidates : List Ty} (h : S.Suits S.Sub decl args c) :
    S.firstSuited decl args (c :: candidates) = some c := by
  simp only [firstSuited, List.find?_cons, h, decide_true]

theorem firstSuited_cons_of_not_suits {candidates : List Ty} (h : ¬ S.Suits S.Sub decl args c) :
    S.firstSuited decl args (c :: candidates) = S.firstSuited decl args candidates := by
  simp only [firstSuited, List.find?_cons, h, decide_false]

/-- There is a resolved type exactly for pairs of the relation. -/
theorem isSome_res_iff : (S.res a b).isSome ↔ S.Sub a b := by
  rw [sub_iff_follows]
  by_cases hg : b.isGeneric
  · cases b with
    | plain _ => cases hg
    | param _ _ => cases hg
    | applied decl args =>
      rw [res]
      split_ifs with he hi hb
      · exact ⟨fun _ => he ▸ .refl a, fun _ => rfl⟩
      · rw [Option.isSome_map, candidate?, isSome_firstSuited_iff,
          follows_iff_of_isInterface hi he]
      · rw [List.find?_isSome, follows_iff_of_isBaseKind hb he]
      · refine ⟨fun h => (by cases h), fun h => ?_⟩
        cases h with
        | refl => exact absurd rfl he
        | native hb => cases hb
        | base hkind => exact absurd hkind hb
        | interface hkind => exact absurd hkind hi
  · rw [Bool.not_eq_true] at hg
    rw [follows_iff_of_isGeneric_eq_false hg, res_of_isGeneric_eq_false S a hg]
    split_ifs with h
    · exact ⟨fun _ => h, fun _ => rfl⟩
    · exact ⟨fun h => (by cases h), fun h' => absurd h' h⟩

end Signature

end Subtyping
