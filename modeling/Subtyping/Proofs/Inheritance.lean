import Subtyping.Proofs.Growth

/-!
# No declaration inherits from itself

Going up from a declaration generation by generation meets every ancestor within as many rounds as
there are declarations (`Universe.Consistent.inheritsFrom_of_reaches`) and nothing else
(`Universe.reaches_of_inheritsFrom`), so a supertype that would close a circle is refused, and adding
one that is not refused leaves no circle (`Universe.not_transGen_self_of_edge`). A loop that goes up
depth first, with a stack, finds the same (`Universe.Consistent.climbsOn_inheritsFrom`). Counting
ancestors then ranks the declarations (`Universe.Consistent.exists_ranking`).
-/

namespace Subtyping.Universe

open Relation

variable {u : Universe} {child parent decl goal : DeclId}

/-! ## Declarations there are -/

/-- The numbers given to declarations so far. -/
def declIds (u : Universe) : Finset DeclId :=
  (Finset.range u.catalog.size).image fun n => ⟨n + 1⟩

theorem card_declIds_le (u : Universe) : u.declIds.card ≤ u.catalog.size :=
  Finset.card_image_le.trans (Finset.card_range _).le

theorem mem_declIds_of_get? {d : Declaration} (h : u.catalog.get? decl = some d) :
    decl ∈ u.declIds := by
  unfold Catalog.get? at h
  split at h
  · cases h
  · rename_i n hn
    obtain ⟨hlt, -⟩ := Array.getElem?_eq_some_iff.1 h
    exact Finset.mem_image.2 ⟨n, Finset.mem_range.2 hlt, by cases decl; simp_all⟩

theorem mem_declIds_of_kind? {ty : Handle} {k : Kind} (hk : u.kind? ty = some k)
    (hh : u.head? ty = some decl) : decl ∈ u.declIds := by
  rw [kind?, hh, Option.bind_some] at hk
  obtain ⟨d, hd, -⟩ := Option.map_eq_some_iff.1 hk
  exact mem_declIds_of_get? hd

/-- Supertypes are listed by some declaration. -/
theorem inherits_iff : u.Inherits child parent ↔
    ∃ d, u.catalog.get? child = some d ∧
      ∃ ty, (d.base = some ty ∨ ty ∈ d.interfaces) ∧ u.head? ty = some parent := by
  unfold Inherits parents
  cases hd : u.catalog.get? child with
  | none => simp
  | some d => simp [List.mem_filterMap, or_and_right, exists_or]

theorem Consistent.mem_declIds_of_inherits (hu : u.Consistent) (h : u.Inherits child parent) :
    parent ∈ u.declIds := by
  obtain ⟨d, hd, ty, hty, hh⟩ := inherits_iff.1 h
  rcases hty with hb | hi
  · have hk := hu.base hd hb
    unfold isBaseKind at hk
    split at hk
    · exact mem_declIds_of_kind? ‹_› hh
    · exact mem_declIds_of_kind? ‹_› hh
    · cases hk
    · cases hk
  · have hk := hu.interfaces hd ty hi
    exact mem_declIds_of_kind? (by simpa [isInterface] using hk) hh

/-! ## Going up finds every ancestor -/

/-- A way up that ends outside a set leaves it somewhere. -/
theorem exists_leaving {seen : List DeclId} (hx : child ∈ seen) (hg : goal ∉ seen)
    (h : ReflTransGen u.Inherits child goal) :
    ∃ y ∈ seen, ∃ p, p ∉ seen ∧ u.Inherits y p ∧ ReflTransGen u.Inherits p goal := by
  induction h using ReflTransGen.head_induction_on with
  | refl => exact absurd hx hg
  | @head x y hxy hyg ih =>
    by_cases hy : y ∈ seen
    · exact ih hy
    · exact ⟨x, hx, y, hy, hxy, hyg⟩

theorem Consistent.climbs_of_reaches (hu : u.Consistent) {rounds : Nat}
    {frontier seen : List DeclId} (hsub : ∀ x ∈ frontier, x ∈ seen)
    (hdone : ∀ x ∈ seen, x ∉ frontier → x ≠ goal ∧ ∀ p ∈ u.parents x, p ∈ seen)
    (hknown : ∀ x ∈ seen, x ∈ u.declIds) (hrounds : u.declIds.card < rounds + seen.toFinset.card)
    (hx : child ∈ seen) (h : ReflTransGen u.Inherits child goal) :
    u.climbs goal rounds frontier seen = true := by
  induction rounds generalizing frontier seen child with
  | zero =>
    have hle : seen.toFinset.card ≤ u.declIds.card :=
      Finset.card_le_card fun x hx => hknown x (List.mem_toFinset.1 hx)
    omega
  | succ n ih =>
    rw [climbs, Bool.or_eq_true, List.contains_iff_mem]
    by_cases hgf : goal ∈ frontier
    · exact Or.inl hgf
    · right
      have hgs : goal ∉ seen := fun hg => (hdone goal hg hgf).1 rfl
      obtain ⟨y, hy, p, hp, hyp, hpg⟩ := exists_leaving hx hgs h
      have hyf : y ∈ frontier := by
        by_contra hyf
        exact hp ((hdone y hy hyf).2 p hyp)
      set next := (frontier.flatMap u.parents).eraseDups.filter (!seen.contains ·) with hnext
      have hmem : ∀ q, q ∈ next ↔ (∃ x ∈ frontier, q ∈ u.parents x) ∧ q ∉ seen := fun q => by
        rw [hnext, List.mem_filter, List.mem_eraseDups, List.mem_flatMap]
        simp
      have hpn : p ∈ next := (hmem p).2 ⟨⟨y, hyf, hyp⟩, hp⟩
      simp only [Bool.and_eq_true, Bool.not_eq_true']
      refine ⟨List.isEmpty_eq_false_iff.2 (List.ne_nil_of_mem hpn), ih ?_ ?_ ?_ ?_ ?_ hpg⟩
      · exact fun x hx => List.mem_append_left _ hx
      · intro x hx hxn
        have hxs : x ∈ seen := (List.mem_append.1 hx).resolve_left hxn
        refine ⟨fun he => hgs (he ▸ hxs), fun q hq => ?_⟩
        by_cases hqs : q ∈ seen
        · exact List.mem_append_right _ hqs
        · refine List.mem_append_left _ ((hmem q).2 ⟨⟨x, ?_, hq⟩, hqs⟩)
          by_contra hxf
          exact hqs ((hdone x hxs hxf).2 q hq)
      · intro x hx
        rcases List.mem_append.1 hx with hx | hx
        · obtain ⟨⟨z, -, hz⟩, -⟩ := (hmem x).1 hx
          exact hu.mem_declIds_of_inherits hz
        · exact hknown x hx
      · have hlt : seen.toFinset.card < (next ++ seen).toFinset.card := by
          refine Finset.card_lt_card ⟨fun x hx => ?_, fun hall => ?_⟩
          · rw [List.mem_toFinset] at hx ⊢
            exact List.mem_append_right _ hx
          · exact hp (List.mem_toFinset.1 (hall (List.mem_toFinset.2 (List.mem_append_left _ hpn))))
        omega
      · exact List.mem_append_left _ hpn

/-- Whatever can be reached by going up is found. -/
theorem Consistent.inheritsFrom_of_reaches (hu : u.Consistent) (hc : child ∈ u.declIds)
    (h : ReflTransGen u.Inherits child goal) : u.inheritsFrom child goal = true := by
  refine hu.climbs_of_reaches (fun x hx => hx) (fun x hx hn => absurd hx hn) ?_ ?_
    (List.mem_singleton.2 rfl) h
  · rintro x hx
    rwa [List.mem_singleton.1 hx]
  · have := card_declIds_le u
    simp only [List.toFinset_cons, List.toFinset_nil, insert_empty_eq, Finset.card_singleton]
    omega

/-- Nothing else is found. -/
theorem reaches_of_climbs {rounds : Nat} {frontier seen : List DeclId}
    (h : u.climbs goal rounds frontier seen = true) :
    ∃ x ∈ frontier, ReflTransGen u.Inherits x goal := by
  induction rounds generalizing frontier seen with
  | zero => cases h
  | succ n ih =>
    rw [climbs, Bool.or_eq_true, List.contains_iff_mem] at h
    rcases h with hgoal | hnext
    · exact ⟨goal, hgoal, .refl⟩
    · obtain ⟨y, hy, hreach⟩ := ih (Bool.and_eq_true_iff.1 hnext).2
      obtain ⟨x, hx, hxy⟩ := List.mem_flatMap.1 (List.mem_eraseDups.1 (List.mem_filter.1 hy).1)
      exact ⟨x, hx, .head hxy hreach⟩

theorem reaches_of_inheritsFrom (h : u.inheritsFrom child goal = true) :
    ReflTransGen u.Inherits child goal := by
  obtain ⟨x, hx, hreach⟩ := reaches_of_climbs h
  rwa [← List.mem_singleton.1 hx]

theorem Consistent.inheritsFrom_iff (hu : u.Consistent) (hc : child ∈ u.declIds) :
    u.inheritsFrom child goal = true ↔ ReflTransGen u.Inherits child goal :=
  ⟨reaches_of_inheritsFrom, hu.inheritsFrom_of_reaches hc⟩

/-! ## Going up with a stack -/

/-- A loop that goes up with a stack ends with `found`. It takes a declaration from the stack until one
is the goal or none is left, and puts the parents of each one that is not among those seen on the
stack. -/
inductive ClimbsOn (u : Universe) (goal : DeclId) : (seen stack : List DeclId) → (found : Bool) → Prop where
  | empty {seen : List DeclId} : u.ClimbsOn goal seen [] false
  | goal {seen stack : List DeclId} : u.ClimbsOn goal seen (goal :: stack) true
  | skip {seen stack : List DeclId} {decl : DeclId} {found : Bool} (hgoal : decl ≠ goal)
    (hseen : decl ∈ seen) (h : u.ClimbsOn goal seen stack found) :
    u.ClimbsOn goal seen (decl :: stack) found
  | climb {seen stack : List DeclId} {decl : DeclId} {found : Bool} (hgoal : decl ≠ goal)
    (hnew : decl ∉ seen)
    (h : u.ClimbsOn goal (decl :: seen) ((u.parents decl).reverse ++ stack) found) :
    u.ClimbsOn goal seen (decl :: stack) found

/-- The loop ends, as every declaration is new only once. -/
theorem Consistent.exists_climbsOn (hu : u.Consistent) (goal : DeclId) {seen stack : List DeclId}
    (hstack : ∀ x ∈ stack, x ∈ u.declIds) : ∃ found, u.ClimbsOn goal seen stack found := by
  -- on the number of declarations that are not yet seen, and below that on the stack
  induction hleft : (u.declIds \ seen.toFinset).card using Nat.strong_induction_on
    generalizing seen stack with
  | h left ih =>
    induction stack with
    | nil => exact ⟨false, .empty⟩
    | cons decl stack ihstack =>
      obtain ⟨hdecl, hrest⟩ := List.forall_mem_cons.1 hstack
      by_cases hgoal : decl = goal
      · subst hgoal
        exact ⟨true, .goal⟩
      by_cases hseen : decl ∈ seen
      · obtain ⟨found, h⟩ := ihstack hrest
        exact ⟨found, .skip hgoal hseen h⟩
      · have hlt : (u.declIds \ (decl :: seen).toFinset).card < left := by
          rw [← hleft, List.toFinset_cons, Finset.sdiff_insert]
          exact Finset.card_erase_lt_of_mem (Finset.mem_sdiff.2 ⟨hdecl, by simpa using hseen⟩)
        have hmore : ∀ x ∈ (u.parents decl).reverse ++ stack, x ∈ u.declIds := by
          intro x hx
          rcases List.mem_append.1 hx with hx | hx
          · exact hu.mem_declIds_of_inherits (List.mem_reverse.1 hx)
          · exact hrest x hx
        obtain ⟨found, h⟩ := ih _ hlt hmore rfl
        exact ⟨found, .climb hgoal hseen h⟩

namespace ClimbsOn

variable {seen stack : List DeclId}

/-- If the goal is met, a declaration on the stack inherits from it. -/
theorem reaches (h : u.ClimbsOn goal seen stack true) :
    ∃ x ∈ stack, ReflTransGen u.Inherits x goal := by
  generalize hfound : true = found at h
  induction h with
  | empty => cases hfound
  | goal => exact ⟨goal, List.mem_cons_self, .refl⟩
  | skip _ _ _ ih =>
    obtain ⟨x, hx, hreach⟩ := ih hfound
    exact ⟨x, List.mem_cons_of_mem _ hx, hreach⟩
  | @climb _ _ decl _ _ _ _ ih =>
    obtain ⟨x, hx, hreach⟩ := ih hfound
    rcases List.mem_append.1 hx with hx | hx
    · exact ⟨decl, List.mem_cons_self, .head (List.mem_reverse.1 hx) hreach⟩
    · exact ⟨x, List.mem_cons_of_mem _ hx, hreach⟩

/-- If it is not met, then nothing on the stack inherits from it. The parents of all that was seen are
seen or on the stack. -/
theorem not_reaches (h : u.ClimbsOn goal seen stack false)
    (hcovered : ∀ x ∈ seen, x ≠ goal ∧ ∀ p ∈ u.parents x, p ∈ seen ∨ p ∈ stack)
    (hchild : child ∈ seen ∨ child ∈ stack) : ¬ ReflTransGen u.Inherits child goal := by
  generalize hfound : false = found at h
  induction h generalizing child with
  | empty =>
    intro hreach
    have hgoal : goal ∉ _ := fun h => (hcovered goal h).1 rfl
    obtain ⟨y, hy, p, hp, hyp, -⟩ := exists_leaving (hchild.resolve_right (by simp)) hgoal hreach
    exact hp (((hcovered y hy).2 p hyp).resolve_right (by simp))
  | goal => cases hfound
  | @skip seen stack decl _ _ hseen _ ih =>
    have hmem : ∀ x, x ∈ seen ∨ x ∈ decl :: stack → x ∈ seen ∨ x ∈ stack := by
      rintro x (hx | hx)
      · exact .inl hx
      · rcases List.mem_cons.1 hx with rfl | hx
        · exact .inl hseen
        · exact .inr hx
    exact ih (fun x hx => ⟨(hcovered x hx).1, fun p hp => hmem p ((hcovered x hx).2 p hp)⟩)
      (hmem _ hchild) hfound
  | @climb seen stack decl _ hgoal _ _ ih =>
    have hmem : ∀ x, x ∈ seen ∨ x ∈ decl :: stack →
        x ∈ decl :: seen ∨ x ∈ (u.parents decl).reverse ++ stack := by
      intro x hx
      simp only [List.mem_cons, List.mem_append] at hx ⊢
      tauto
    refine ih (fun x hx => ?_) (hmem _ hchild) hfound
    rcases List.mem_cons.1 hx with rfl | hx
    · exact ⟨hgoal, fun p hp => .inr (List.mem_append_left _ (List.mem_reverse.2 hp))⟩
    · exact ⟨(hcovered x hx).1, fun p hp => hmem p ((hcovered x hx).2 p hp)⟩

end ClimbsOn

/-- Rounds and a stack give the same answer. -/
theorem Consistent.climbsOn_inheritsFrom (hu : u.Consistent) (hc : child ∈ u.declIds) (goal : DeclId) :
    u.ClimbsOn goal [] [child] (u.inheritsFrom child goal) := by
  obtain ⟨found, h⟩ : ∃ found, u.ClimbsOn goal [] [child] found :=
    hu.exists_climbsOn goal (by simpa using hc)
  suffices hsame : u.inheritsFrom child goal = found by rwa [hsame]
  cases found with
  | true =>
    obtain ⟨x, hx, hreach⟩ := h.reaches
    obtain rfl := List.mem_singleton.1 hx
    exact (hu.inheritsFrom_iff hc).2 hreach
  | false =>
    have hnone := h.not_reaches (by simp) (.inr (List.mem_singleton.2 rfl))
    exact Bool.eq_false_iff.2 fun h => hnone ((hu.inheritsFrom_iff hc).1 h)

/-! ## Adding a supertype -/

/-- A way up to `a` need not go on from `a`, so the edges from `a` may be others. -/
theorem reflTransGen_of_edges {r r' : DeclId → DeclId → Prop} {a b : DeclId}
    (hr : ∀ x y, r x y → x ≠ a → r' x y) (h : ReflTransGen r b a) : ReflTransGen r' b a := by
  induction h using ReflTransGen.head_induction_on with
  | refl => exact .refl
  | @head x y hxy _ ih =>
    by_cases hx : x = a
    · rw [hx]
    · exact .head (hr x y hxy hx) ih

/-- With one more edge, every circle goes through that edge. -/
theorem not_transGen_self_of_edge {r r' : DeclId → DeclId → Prop} {a b : DeclId}
    (hr : ∀ x y, r' x y → r x y ∨ (x = a ∧ y = b)) (hacyc : ∀ x, ¬ TransGen r x x)
    (hab : ¬ ReflTransGen r b a) (x : DeclId) : ¬ TransGen r' x x := by
  have key : ∀ {x y}, TransGen r' x y →
      TransGen r x y ∨ (ReflTransGen r x a ∧ ReflTransGen r b y) := by
    intro x y h
    induction h with
    | single hxy =>
      rcases hr _ _ hxy with h | ⟨rfl, rfl⟩
      · exact Or.inl (.single h)
      · exact Or.inr ⟨.refl, .refl⟩
    | tail _ hyz ih =>
      rcases hr _ _ hyz with h | ⟨rfl, rfl⟩
      · rcases ih with ih | ⟨hxa, hby⟩
        · exact Or.inl (ih.tail h)
        · exact Or.inr ⟨hxa, hby.tail h⟩
      · rcases ih with ih | ⟨hxa, -⟩
        · exact Or.inr ⟨ih.to_reflTransGen, .refl⟩
        · exact Or.inr ⟨hxa, .refl⟩
  intro h
  rcases key h with h | ⟨hxa, hbx⟩
  · exact hacyc x h
  · exact hab (hbx.trans hxa)

/-! ## Ranks -/

open scoped Classical in
/-- The number of strict ancestors of a declaration. -/
noncomputable def rank (u : Universe) (decl : DeclId) : Nat :=
  (u.declIds.filter fun ancestor => TransGen u.Inherits decl ancestor).card

theorem Consistent.rank_lt_of_inherits (hu : u.Consistent) (h : u.Inherits child parent) :
    u.rank parent < u.rank child := by
  classical
  refine Finset.card_lt_card ⟨fun x hx => ?_, fun hall => ?_⟩
  · obtain ⟨hx, hpx⟩ := Finset.mem_filter.1 hx
    exact Finset.mem_filter.2 ⟨hx, .head h hpx⟩
  · have hp : parent ∈ u.declIds.filter fun a => TransGen u.Inherits child a :=
      Finset.mem_filter.2 ⟨hu.mem_declIds_of_inherits h, .single h⟩
    exact hu.acyclic parent (Finset.mem_filter.1 (hall hp)).2

theorem Consistent.rank_lt_size (hu : u.Consistent) (h : decl ∈ u.declIds) :
    u.rank decl < u.catalog.size := by
  classical
  refine lt_of_lt_of_le (Finset.card_lt_card ⟨Finset.filter_subset _ _, fun hall => ?_⟩)
    (card_declIds_le u)
  exact hu.acyclic decl (Finset.mem_filter.1 (hall h)).2

theorem Consistent.exists_ranking (hu : u.Consistent) : u.signature.Ranking u.rank := by
  have key : ∀ {decl t}, t ∈ u.signature.declInterfaces decl →
      ∃ i d, u.catalog.get? decl = some d ∧ i ∈ d.interfaces ∧ u.Reads i t := by
    intro decl t ht
    obtain ⟨i, hi, rfl⟩ := List.mem_map.1 ht
    cases hd : u.catalog.get? decl with
    | none => simp [hd] at hi
    | some d =>
      have hi : i ∈ d.interfaces := by simpa [hd] using hi
      exact ⟨i, d, rfl, hi, reads_typeAt (contains_of_isInterface (hu.interfaces hd i hi))⟩
  refine ⟨fun {decl t} ht => ?_, fun {t decl} hint hh => ?_, fun {decl t} ht => ?_⟩
  · obtain ⟨i, d, hd, hi, hr⟩ := key ht
    have hint := hu.interfaces hd i hi
    rw [hu.isInterface_of_reads hr] at hint
    obtain ⟨parent, hp⟩ := Signature.head?_of_isInterface hint
    refine ⟨parent, hp, hu.rank_lt_of_inherits (inherits_iff.2 ⟨d, hd, i, Or.inr hi, ?_⟩)⟩
    rw [hu.head?_of_reads hr, hp]
  · refine hu.rank_lt_size ?_
    simp only [Signature.isInterface, Signature.kindOf?, hh, Option.bind_some, beq_iff_eq] at hint
    obtain ⟨d, hd, -⟩ := Option.map_eq_some_iff.1 hint
    exact mem_declIds_of_get? hd
  · obtain ⟨i, d, hd, hi, hr⟩ := key ht
    rw [← hu.isInterface_of_reads hr]
    exact hu.interfaces hd i hi

end Subtyping.Universe
