import Subtyping.Proofs.Scopes

/-!
# Arguments for parameters

Putting arguments for the parameters of a declaration is a matter of positions in a tree
(`Ty.at?`). A parameter under at most as many applications as the depth limit allows gives way to its
argument, if it has one; an application below so many others stays as a whole, and so does all else
(`Ty.Filled`). There is just one such tree, the one that `Ty.fill` gives (`Ty.filled_iff`).

Arguments may be put in one after the other or all at once: putting `fs` for the parameters of one
declaration and then `gs` for those of another is putting the members of `fs`, with `gs` put in, for the
parameters of the first one (`Ty.Formed.fill_fill`).

In a universe this is worked out on handles. The handle that comes out stands for the tree, it is the
given one if nothing changes, and the journal says so if the limit was come upon
(`UniverseM.instantiate_substitutes`).
-/

namespace Subtyping

namespace Ty

variable {owner o : DeclId} {args ts : List Ty} {levels m n : Nat} {t r s : Ty} {path : List Nat}

/-! ## Positions -/

/-- The tree at a position, which is given by the number of an argument at each application on the way. -/
def at? : Ty → (path : List Nat) → Option Ty
  | t, [] => some t
  | applied _ args, i :: path => args[i]?.bind (at? · path)
  | plain _, _ :: _ => none
  | param _ _, _ :: _ => none

theorem at?_nil (t : Ty) : t.at? [] = some t := by
  cases t <;> rfl

theorem at?_applied_cons (decl : DeclId) (ts : List Ty) (i : Nat) (path : List Nat) :
    (applied decl ts).at? (i :: path) = ts[i]?.bind (at? · path) :=
  rfl

/-- More applications are nested than a number if one of them is below so many others. -/
theorem lt_nesting_iff :
    n < t.nesting ↔ ∃ path decl ts, t.at? path = some (applied decl ts) ∧ n ≤ path.length := by
  induction t generalizing n with
  | plain decl =>
    refine ⟨fun h => absurd h (Nat.not_lt_zero n), ?_⟩
    rintro ⟨path, e, ts, h, -⟩
    cases path <;> cases h
  | param o i =>
    refine ⟨fun h => absurd h (Nat.not_lt_zero n), ?_⟩
    rintro ⟨path, e, ts, h, -⟩
    cases path <;> cases h
  | applied decl ts ih =>
    cases n with
    | zero =>
      refine ⟨fun _ => ⟨[], decl, ts, rfl, Nat.le_refl 0⟩, fun _ => ?_⟩
      rw [nesting]
      exact Nat.succ_pos _
    | succ n =>
      rw [nesting, Nat.succ_lt_succ_iff, lt_nestingIn_iff]
      constructor
      · rintro ⟨t, ht, hlt⟩
        obtain ⟨path, e, us, hat, hle⟩ := (ih t ht).1 hlt
        obtain ⟨i, hi⟩ := List.mem_iff_getElem?.1 ht
        refine ⟨i :: path, e, us, ?_, Nat.succ_le_succ hle⟩
        rw [at?_applied_cons, hi, Option.bind_some, hat]
      · rintro ⟨_ | ⟨i, path⟩, e, us, hat, hle⟩
        · exact absurd hle (Nat.not_succ_le_zero n)
        · rw [at?_applied_cons] at hat
          obtain ⟨t, hi, hat⟩ := Option.bind_eq_some_iff.1 hat
          have ht := List.mem_of_getElem? hi
          exact ⟨t, ht, (ih t ht).2 ⟨path, e, us, hat, Nat.le_of_succ_le_succ hle⟩⟩

/-! ## Putting arguments in -/

theorem fill_plain (decl : DeclId) : (plain decl).fill owner args levels = plain decl := by
  cases levels <;> rfl

theorem fill_param (o : DeclId) (i : Nat) :
    (param o i).fill owner args levels = if o = owner then args[i]?.getD (param o i) else param o i := by
  cases levels <;> rfl

theorem fill_applied_zero (decl : DeclId) :
    (applied decl ts).fill owner args 0 = applied decl ts :=
  rfl

theorem fill_applied_succ (decl : DeclId) :
    (applied decl ts).fill owner args (levels + 1) = applied decl (ts.map (·.fill owner args levels)) :=
  rfl

/-- Beyond the nesting of a tree, the number of levels does not matter. -/
theorem fill_of_nesting_le (hm : t.nesting ≤ m) (hn : t.nesting ≤ n) :
    t.fill owner args m = t.fill owner args n := by
  induction t generalizing m n with
  | plain decl => rw [fill_plain, fill_plain]
  | param o i => rw [fill_param, fill_param]
  | applied decl ts ih =>
    rw [nesting] at hm hn
    obtain ⟨m, rfl⟩ : ∃ k, m = k + 1 := ⟨m - 1, by omega⟩
    obtain ⟨n, rfl⟩ : ∃ k, n = k + 1 := ⟨n - 1, by omega⟩
    rw [fill_applied_succ, fill_applied_succ]
    congr 1
    refine List.map_congr_left fun t ht => ?_
    have hle := nesting_le_of_mem ht
    exact ih t ht (by omega) (by omega)

/-- What stands at a position within the levels. -/
theorem at?_fill (hat : t.at? path = some s) (hle : path.length ≤ levels) :
    (t.fill owner args levels).at? path = some (s.fill owner args (levels - path.length)) := by
  induction path generalizing t levels with
  | nil =>
    rw [at?_nil] at hat
    obtain rfl := Option.some.inj hat
    exact at?_nil _
  | cons i path ih =>
    cases t with
    | plain decl => cases hat
    | param o j => cases hat
    | applied decl ts =>
      rw [at?_applied_cons] at hat
      obtain ⟨t, hi, hat⟩ := Option.bind_eq_some_iff.1 hat
      rw [List.length_cons] at hle
      obtain ⟨levels, rfl⟩ : ∃ k, levels = k + 1 := ⟨levels - 1, by omega⟩
      rw [fill_applied_succ, at?_applied_cons, List.getElem?_map, hi, Option.map_some, Option.bind_some,
        ih hat (by omega), List.length_cons, Nat.add_sub_add_right]

/-- Nothing changes at a position beyond the levels. -/
theorem at?_fill_below (hat : t.at? path = some s) (hlt : levels < path.length) :
    (t.fill owner args levels).at? path = some s := by
  induction path generalizing t levels with
  | nil => exact absurd hlt (Nat.not_lt_zero levels)
  | cons i path ih =>
    cases t with
    | plain decl => cases hat
    | param o j => cases hat
    | applied decl ts =>
      cases levels with
      | zero => exact hat
      | succ levels =>
        rw [at?_applied_cons] at hat
        obtain ⟨t, hi, hat⟩ := Option.bind_eq_some_iff.1 hat
        rw [fill_applied_succ, at?_applied_cons, List.getElem?_map, hi, Option.map_some,
          Option.bind_some, ih hat (Nat.lt_of_succ_lt_succ hlt)]

/-- The second tree is the first one with every parameter of the owner that has an argument and lies
under at most so many applications replaced by the argument. All else stays, an application below so
many others as a whole. -/
structure Filled (owner : DeclId) (args : List Ty) (levels : Nat) (t r : Ty) : Prop where
  replaced : ∀ {path i a}, t.at? path = some (param owner i) → path.length ≤ levels →
    args[i]? = some a → r.at? path = some a
  other : ∀ {path o i}, t.at? path = some (param o i) →
    (o = owner → path.length ≤ levels → args.length ≤ i) → r.at? path = some (param o i)
  leaf : ∀ {path decl}, t.at? path = some (plain decl) → r.at? path = some (plain decl)
  node : ∀ {path decl ts}, t.at? path = some (applied decl ts) → path.length < levels →
    ∃ ts', ts'.length = ts.length ∧ r.at? path = some (applied decl ts')
  below : ∀ {path decl ts}, t.at? path = some (applied decl ts) → levels ≤ path.length →
    r.at? path = some (applied decl ts)

theorem filled_fill (owner : DeclId) (args : List Ty) (levels : Nat) (t : Ty) :
    t.Filled owner args levels (t.fill owner args levels) where
  replaced {path i a} hat hle ha := by
    rw [at?_fill hat hle, fill_param, if_pos rfl, ha, Option.getD_some]
  other {path o i} hat hkept := by
    by_cases hle : path.length ≤ levels
    · rw [at?_fill hat hle, fill_param]
      split_ifs with ho
      · rw [List.getElem?_eq_none (hkept ho hle), Option.getD_none]
      · rfl
    · exact at?_fill_below hat (Nat.lt_of_not_le hle)
  leaf {path decl} hat := by
    by_cases hle : path.length ≤ levels
    · rw [at?_fill hat hle, fill_plain]
    · exact at?_fill_below hat (Nat.lt_of_not_le hle)
  node {path decl ts} hat hlt := by
    obtain ⟨k, hk⟩ : ∃ k, levels - path.length = k + 1 := ⟨levels - path.length - 1, by omega⟩
    exact ⟨ts.map (·.fill owner args k), List.length_map _, by
      rw [at?_fill hat hlt.le, hk, fill_applied_succ]⟩
  below {path decl ts} hat hle := by
    rcases Nat.lt_or_eq_of_le hle with hlt | rfl
    · exact at?_fill_below hat hlt
    · rw [at?_fill hat le_rfl, Nat.sub_self, fill_applied_zero]

/-- What is said of all positions of an application is said of those in each argument. -/
theorem Filled.arg {decl : DeclId} {rs : List Ty} {i : Nat}
    (h : (applied decl ts).Filled owner args (levels + 1) (applied decl rs)) (hi : ts[i]? = some t)
    (hi' : rs[i]? = some r) : t.Filled owner args levels r := by
  have hat : ∀ path, (applied decl ts).at? (i :: path) = t.at? path := fun path => by
    rw [at?_applied_cons, hi, Option.bind_some]
  have hat' : ∀ path, (applied decl rs).at? (i :: path) = r.at? path := fun path => by
    rw [at?_applied_cons, hi', Option.bind_some]
  constructor
  · intro path j a hp hle ha
    rw [← hat']
    exact h.replaced ((hat path).trans hp) (Nat.succ_le_succ hle) ha
  · intro path o j hp hkept
    rw [← hat']
    exact h.other ((hat path).trans hp) fun ho hle => hkept ho (Nat.le_of_succ_le_succ hle)
  · intro path e hp
    rw [← hat']
    exact h.leaf ((hat path).trans hp)
  · intro path e us hp hlt
    rw [← hat']
    exact h.node ((hat path).trans hp) (Nat.succ_lt_succ hlt)
  · intro path e us hp hle
    rw [← hat']
    exact h.below ((hat path).trans hp) (Nat.succ_le_succ hle)

/-- The positions determine the tree. -/
theorem Filled.eq_fill (h : t.Filled owner args levels r) : r = t.fill owner args levels := by
  induction t generalizing levels r with
  | plain decl =>
    have hroot := h.leaf (at?_nil _)
    rw [at?_nil] at hroot
    rw [fill_plain, Option.some.inj hroot]
  | param o i =>
    rw [fill_param]
    split_ifs with ho
    · subst ho
      cases ha : args[i]? with
      | some a =>
        have hroot := h.replaced (at?_nil _) (Nat.zero_le levels) ha
        rw [at?_nil] at hroot
        exact Option.some.inj hroot
      | none =>
        have hroot := h.other (at?_nil _) fun _ _ => List.getElem?_eq_none_iff.1 ha
        rw [at?_nil] at hroot
        exact Option.some.inj hroot
    · have hroot := h.other (at?_nil _) fun ho' _ => absurd ho' ho
      rw [at?_nil] at hroot
      exact Option.some.inj hroot
  | applied decl ts ih =>
    cases levels with
    | zero =>
      have hroot := h.below (at?_nil _) (Nat.le_refl 0)
      rw [at?_nil] at hroot
      exact Option.some.inj hroot
    | succ levels =>
      obtain ⟨rs, hlen, hroot⟩ := h.node (at?_nil _) (Nat.succ_pos levels)
      rw [at?_nil] at hroot
      obtain rfl := Option.some.inj hroot
      rw [fill_applied_succ]
      congr 1
      refine List.ext_getElem (by rw [hlen, List.length_map]) fun i hi hi' => ?_
      have hit : i < ts.length := hlen ▸ hi
      rw [List.getElem_map]
      exact ih _ (List.getElem_mem hit)
        (h.arg (List.getElem?_eq_getElem hit) (List.getElem?_eq_getElem hi))

theorem filled_iff : t.Filled owner args levels r ↔ r = t.fill owner args levels :=
  ⟨Filled.eq_fill, fun h => h ▸ filled_fill owner args levels t⟩

/-! ## One after the other -/

/-- Where the first arguments stand for all parameters, and no tree is nested beyond its levels, the
second arguments may be put into the first ones. -/
theorem Formed.fill_fill {S : Signature} {arity : DeclId → Nat} {fs gs : List Ty} {k : Nat}
    (ht : t.Formed S arity (· = owner)) (hlen : arity owner ≤ fs.length) (hm : t.nesting ≤ m)
    (hfs : ∀ f ∈ fs, f.nesting ≤ k) (hn : (t.fill owner fs m).nesting ≤ n) :
    (t.fill owner fs m).fill o gs n = t.fill owner (fs.map (·.fill o gs k)) m := by
  induction ht generalizing m n with
  | plain => rw [fill_plain, fill_plain, fill_plain]
  | @param owner' i howner hi =>
    subst howner
    have hlt : i < fs.length := Nat.lt_of_lt_of_le hi hlen
    rw [fill_param, if_pos rfl, List.getElem?_eq_getElem hlt, Option.getD_some] at hn ⊢
    rw [fill_param, if_pos rfl, List.getElem?_map, List.getElem?_eq_getElem hlt, Option.map_some,
      Option.getD_some]
    exact fill_of_nesting_le hn (hfs _ (List.getElem_mem hlt))
  | @applied decl ts _ _ _ ih =>
    rw [nesting] at hm
    obtain ⟨m, rfl⟩ : ∃ k, m = k + 1 := ⟨m - 1, by omega⟩
    rw [fill_applied_succ, nesting] at hn
    obtain ⟨n, rfl⟩ : ∃ k, n = k + 1 := ⟨n - 1, by omega⟩
    rw [fill_applied_succ, fill_applied_succ, fill_applied_succ, List.map_map]
    congr 1
    refine List.map_congr_left fun t ht => ?_
    have hle := nesting_le_of_mem ht
    have hle' := nesting_le_of_mem (List.mem_map_of_mem (f := (·.fill owner fs m)) ht)
    exact ih t ht (by omega) (by omega)

end Ty

namespace UniverseM

open Universe

variable {u : Universe} {c : Chronicle} {ty : Handle} {args : List Handle} {owner : DeclId}

/-! ## On handles -/

/-- Work that notes nothing. -/
def Silent {α : Type} (x : UniverseM α) : Prop :=
  ∀ c, (x c).2.journal = c.journal

theorem Silent.wordless : Wordless Silent where
  pure _ _ := rfl
  bind hx hf c := (hf _ _).trans (hx c)
  read _ hk c := hk _ c
  intern _ _ := rfl

/-- The journal says so if a type was nested too deeply, and nothing else. -/
theorem journal_instantiate (hu : u.Consistent) (hty : u.contains ty)
    (hargs : ∀ a ∈ args, u.contains a) (owner : DeclId) (j : Journal) :
    (instantiate ty owner args ⟨u, j⟩).2.journal =
      if Limits.instantiation.depth < (u.typeAt ty).nesting then j.note (.nestingLimitReached ty)
      else j := by
  have hgauge : (fill owner args Limits.instantiation.depth ty (.new Limits.instantiation.depth)
      ⟨u, j⟩).1.2 = (DepthGauge.new Limits.instantiation.depth).exceededIf
        (Limits.instantiation.depth < (u.typeAt ty).nesting) :=
    (fill_ensures hu (reads_typeAt hty) (forall₂_reads_map hargs) rfl j).2.2
  have hsilent := Silent.wordless.fill owner args Limits.instantiation.depth ty
    (.new Limits.instantiation.depth) ⟨u, j⟩
  rw [instantiate, run_bind, StateT.run]
  generalize fill owner args Limits.instantiation.depth ty (.new Limits.instantiation.depth) ⟨u, j⟩ = r
    at hgauge hsilent
  obtain ⟨⟨result, gauge⟩, c⟩ := r
  dsimp only at hgauge hsilent ⊢
  have hexceeded : gauge.exceeded = decide (Limits.instantiation.depth < (u.typeAt ty).nesting) := by
    rw [hgauge]
    exact Bool.false_or _
  rw [hexceeded]
  simp only [decide_eq_true_iff]
  split_ifs
  · exact congrArg (Journal.note · _) hsilent
  · exact hsilent

section Reads

variable {t : Ty} {l : List Handle} {ts trees : List Ty} (hu : c.univ.Consistent)
  (hargs : List.Forall₂ c.univ.Reads args trees) (owner : DeclId)
include hu hargs

theorem reads_instantiate (ht : c.univ.Reads ty t) :
    c.univ.Grows (instantiate ty owner args c).2.univ ∧
      (instantiate ty owner args c).2.univ.Reads (instantiate ty owner args c).1
        (t.instantiate owner trees) :=
  instantiate_ensures hu ht hargs c.journal

theorem reads_mapM_instantiate (hl : List.Forall₂ c.univ.Reads l ts) :
    c.univ.Grows (l.mapM (instantiate · owner args) c).2.univ ∧
      List.Forall₂ (l.mapM (instantiate · owner args) c).2.univ.Reads
        (l.mapM (instantiate · owner args) c).1 (ts.map (·.instantiate owner trees)) :=
  Ensures.mapM hu hl (fun hv hread => instantiate_ensures hv.after hread (hv.forall₂_reads hargs))
    c.journal

end Reads

/-- Arguments put in one after the other, or into each other first. -/
theorem instantiate_instantiate {first second : DeclId} {fs gs : List Handle} (hu : c.univ.Consistent)
    (hty : c.univ.contains ty) (hfs : ∀ a ∈ fs, c.univ.contains a) (hgs : ∀ a ∈ gs, c.univ.contains a)
    (howner : c.univ.anyOwner (· != first) ty = false) (harity : c.univ.arity first ≤ fs.length)
    (hnest : (c.univ.typeAt ty).nesting ≤ Limits.instantiation.depth)
    (hnests : ∀ a ∈ fs, (c.univ.typeAt a).nesting ≤ Limits.instantiation.depth)
    (hmid : ((instantiate ty first fs c).2.univ.typeAt (instantiate ty first fs c).1).nesting ≤
      Limits.instantiation.depth) :
    let r := instantiate ty first fs c
    let r' := instantiate r.1 second gs r.2
    let filled := fs.mapM (instantiate · second gs) r'.2
    (instantiate ty first filled.1 filled.2).1 = r'.1 := by
  intro r r' filled
  have ht := reads_typeAt hty
  have hformed : (c.univ.typeAt ty).Formed c.univ.signature c.univ.arity (· = first) := by
    rw [hu.anyOwner_of_reads _ ht] at howner
    simpa using hu.formed_of_reads _ ht howner
  have hreads := forall₂_reads_map hfs
  have hreads' := forall₂_reads_map hgs
  obtain ⟨hg, hr⟩ := reads_instantiate hu hreads first ht
  obtain ⟨hg', hr'⟩ := reads_instantiate hg.after (hg.forall₂_reads hreads') second hr
  have hlater := hg.trans hg'
  obtain ⟨hg'', hfilled⟩ := reads_mapM_instantiate hg'.after (hlater.forall₂_reads hreads') second
    (hlater.forall₂_reads hreads)
  obtain ⟨hg₃, hlast⟩ := reads_instantiate hg''.after hfilled first ((hlater.trans hg'').reads ht)
  refine hg₃.after.reads_injective hlast ((hg''.trans hg₃).reads ?_)
  have hcomp : ((c.univ.typeAt ty).instantiate first (fs.map c.univ.typeAt)).instantiate second
      (gs.map c.univ.typeAt) = (c.univ.typeAt ty).instantiate first
        ((fs.map c.univ.typeAt).map (·.instantiate second (gs.map c.univ.typeAt))) := by
    refine hformed.fill_fill (by rwa [List.length_map]) hnest (fun f hf => ?_) ?_
    · obtain ⟨a, ha, rfl⟩ := List.mem_map.1 hf
      exact hnests a ha
    · exact le_of_eq_of_le (congrArg Ty.nesting hr.2.symm) hmid
  rw [← hcomp]
  exact hr'

/-- What stands for a type with known arguments put for the parameters of a declaration. The result
stands for the one tree in which every parameter of the declaration that has an argument and lies under
at most as many applications as allowed is replaced, and nothing else; it is the given handle just if
nothing is to be replaced; and the journal says that the limit was come upon if some application is below
as many others as allowed, and nothing otherwise. Where all parameters have their arguments and nothing
is nested too deeply, arguments may be put in one after the other or into each other first. -/
theorem instantiate_substitutes (hc : c.univ.Built) (hty : c.univ.contains ty) :
    let limit := 50
    let t := c.univ.typeAt ty
    (∀ owner args, (∀ a ∈ args, c.univ.contains a) →
      let r := instantiate ty owner args c
      let trees := args.map c.univ.typeAt
      r.2.univ.contains r.1 ∧
      (∀ s, t.Filled owner trees limit s ↔ s = r.2.univ.typeAt r.1) ∧
      (r.1 = ty ↔ t.Filled owner trees limit t) ∧
      ((∃ path decl ts, t.at? path = some (.applied decl ts) ∧ limit ≤ path.length) →
        r.2.journal = c.journal.note (.nestingLimitReached ty)) ∧
      ((∀ path decl ts, t.at? path = some (.applied decl ts) → path.length < limit) →
        r.2.journal = c.journal)) ∧
    ∀ first fs second gs, (∀ a ∈ fs, c.univ.contains a) → (∀ a ∈ gs, c.univ.contains a) →
      c.univ.anyOwner (· != first) ty = false → c.univ.arity first ≤ fs.length →
      t.nesting ≤ limit → (∀ a ∈ fs, (c.univ.typeAt a).nesting ≤ limit) →
        let r := instantiate ty first fs c
        (r.2.univ.typeAt r.1).nesting ≤ limit →
          let r' := instantiate r.1 second gs r.2
          let filled := fs.mapM (instantiate · second gs) r'.2
          (instantiate ty first filled.1 filled.2).1 = r'.1 := by
  intro limit t
  have hu := hc.valid.consistent
  have ht : c.univ.Reads ty t := reads_typeAt hty
  refine ⟨fun owner args hargs => ?_, fun first fs second gs hfs hgs howner harity hnest hnests => ?_⟩
  rotate_left
  · intro r hmid
    exact instantiate_instantiate hu hty hfs hgs howner harity hnest hnests hmid
  intro r trees
  obtain ⟨hg, hr⟩ := reads_instantiate hu (forall₂_reads_map hargs) owner ht
  have hjournal := journal_instantiate hu hty hargs owner c.journal
  refine ⟨hr.1, fun s => ?_, ?_, fun hdeep => ?_, fun hflat => ?_⟩
  · rw [Ty.filled_iff]
    exact ⟨fun h => h.trans hr.2.symm, fun h => h.trans hr.2⟩
  · rw [Ty.filled_iff, eq_comm (a := t)]
    exact hg.after.eq_iff_of_reads hr (hg.reads ht)
  · exact hjournal.trans (if_pos (Ty.lt_nesting_iff.2 hdeep))
  · refine hjournal.trans (if_neg fun hlt => ?_)
    obtain ⟨path, decl, ts, hat, hle⟩ := Ty.lt_nesting_iff.1 hlt
    exact absurd (hflat path decl ts hat) (Nat.not_lt.2 hle)

/-- `X` put for `T` in `D<T>` gives `D<X>`. Putting `D<T>` for it first gives `D<D<T>>`, which is new, and
with `X` put into that, or `D<X>` put for `T` at once, it is `D<D<X>>`. -/
theorem instantiate_substitutes_selfBounded :
    let c := Chronicle.selfBounded
    c.univ.contains ⟨2⟩ ∧ (instantiate ⟨2⟩ ⟨1⟩ [⟨3⟩] c).1 = ⟨4⟩ ∧
    (c.univ.typeAt ⟨2⟩).Filled ⟨1⟩ [c.univ.typeAt ⟨3⟩] 50
      ((instantiate ⟨2⟩ ⟨1⟩ [⟨3⟩] c).2.univ.typeAt ⟨4⟩) ∧
    let r := instantiate ⟨2⟩ ⟨1⟩ [⟨2⟩] c
    let r' := instantiate r.1 ⟨1⟩ [⟨3⟩] r.2
    let filled := [⟨2⟩].mapM (instantiate · ⟨1⟩ [⟨3⟩]) r'.2
    c.univ.contains r.1 = false ∧ filled.1 = [⟨4⟩] ∧ r'.1 = ⟨5⟩ ∧
      (instantiate ⟨2⟩ ⟨1⟩ filled.1 filled.2).1 = r'.1 := by
  have hty : Chronicle.selfBounded.univ.contains ⟨2⟩ := by cbv
  have hargs : ∀ a ∈ [(⟨2⟩ : Handle), ⟨3⟩], Chronicle.selfBounded.univ.contains a :=
    List.all_eq_true.1 (by cbv)
  have hresult : (instantiate ⟨2⟩ ⟨1⟩ [⟨3⟩] .selfBounded).1 = ⟨4⟩ := by cbv
  obtain ⟨hone, hcomp⟩ := instantiate_substitutes Chronicle.built_selfBounded hty
  have htree := (hone ⟨1⟩ [⟨3⟩] (List.forall_mem_singleton.2 (hargs _ (by decide)))).2.1
  have hflat : (Chronicle.selfBounded.univ.typeAt ⟨2⟩).nesting ≤ 50 := of_decide_eq_true (by cbv)
  refine ⟨hty, hresult, (htree _).2 (by rw [hresult]), by cbv, by cbv, by cbv, ?_⟩
  exact hcomp ⟨1⟩ [⟨2⟩] ⟨1⟩ [⟨3⟩] (List.forall_mem_singleton.2 hty)
    (List.forall_mem_singleton.2 (hargs _ (by decide))) (by cbv) (of_decide_eq_true (by cbv)) hflat
    (List.forall_mem_singleton.2 hflat) (of_decide_eq_true (by cbv))

end UniverseM

end Subtyping
