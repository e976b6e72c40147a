import Subtyping.Proofs.Reachability

/-!
# What a search passes on

All types in an answer come from the source of the question. So a property of types that goes up, that
goes from an application to its arguments, and that an application of the same definition gets back from
new arguments (`Signature.Passes`) goes from the source to the answer (`Search.evaluate_carries`). This
holds under any limits, and whatever verdicts are on record, right or wrong, as long as they pass the
property on: an answer that a limit spoiled, or for which a type was assumed, is still made of types that
come from the source.

Besides, no work is refused in silence as long as every base chain ends within the reach of a walk
(`Search.Passed.tidy`).
-/

namespace Subtyping

/-- A property that types pass on to their supertypes, and applications to their arguments, and that an
application keeps when its arguments are exchanged for others that have it. -/
structure Signature.Passes (S : Signature) (C : Ty → Prop) : Prop where
  base : ∀ {t b}, C t → S.baseOf t = some b → C b
  declared : ∀ {t i}, C t → i ∈ S.declaredBy t → C i
  args : ∀ {decl as}, C (.applied decl as) → ∀ a ∈ as, C a
  rebuilt : ∀ {decl as xs}, C (.applied decl as) → xs.length = as.length → (∀ x ∈ xs, C x) →
    C (.applied decl xs)

theorem Signature.Passes.candidates {S : Signature} {C : Ty → Prop} (hC : S.Passes C) {a : Ty}
    (ha : C a) : ∀ x ∈ S.closureOf a, C x :=
  forall_mem_closureOf (fun _ _ => hC.base) (fun _ _ => hC.declared) ha

theorem Signature.Passes.trivial {S : Signature} : S.Passes fun _ => True :=
  ⟨fun _ _ => .intro, fun _ _ => .intro, fun _ _ _ => .intro, fun _ _ _ => .intro⟩

/-- A known type, if any, that has the property if `P` holds. -/
def Universe.Bears (u : Universe) (C : Ty → Prop) (P : Prop) (r : Option Handle) : Prop :=
  ∀ ty ∈ r, ∃ t, u.Reads ty t ∧ (P → C t)

namespace Universe.Bears

variable {u v : Universe} {C : Ty → Prop} {P Q : Prop} {r : Option Handle}

protected theorem none : u.Bears C P none :=
  fun _ h => by cases h

protected theorem some {ty : Handle} {t : Ty} (h : u.Reads ty t) (ht : P → C t) :
    u.Bears C P (some ty) := by
  intro ty' hty
  cases hty
  exact ⟨t, h, ht⟩

theorem imp (h : u.Bears C P r) (hQ : Q → P) : u.Bears C Q r := by
  intro ty hty
  obtain ⟨t, ht, hC⟩ := h ty hty
  exact ⟨t, ht, fun hq => hC (hQ hq)⟩

theorem grow (h : u.Bears C P r) (hg : u.Grows v) : v.Bears C P r := by
  intro ty hty
  obtain ⟨t, ht, hC⟩ := h ty hty
  exact ⟨t, hg.reads ht, hC⟩

end Universe.Bears

namespace Search

open UniverseM

variable {α β : Type} {S : Signature} {C : Ty → Prop} {s s' s'' : Search} {a b : Ty}

/-! ## Rules -/

/-- What holds of a search in a universe with signature `S` if the verdicts on record pass the
property on. -/
structure Passing (S : Signature) (C : Ty → Prop) (s : Search) : Prop where
  consistent : s.univ.Consistent
  owned : s.univ.Owned
  signature : s.univ.signature = S
  entries : ∀ {pair : Pair} {verdict : Verdict}, s.verdicts.entries[pair]? = some verdict →
    s.univ.contains pair.source ∧
      s.univ.Bears C (C (s.univ.typeAt pair.source)) verdict.substitution?

/-- A state that work leads to. Refusals show in the guard, provided that no walk is cut off. -/
structure Passed (S : Signature) (C : Ty → Prop) (s s' : Search) : Prop where
  framed : s.Framed s'
  grows : s.univ.Grows s'.univ
  after : Passing S C s'
  tidy : S.WithinReach → s'.guard.exceeded = false → s'.refusals = s.refusals

theorem Passed.refl (hs : Passing S C s) : Passed S C s s :=
  ⟨.refl s, .refl hs.consistent, hs, fun _ _ => rfl⟩

theorem Passed.trans (h : Passed S C s s') (h' : Passed S C s' s'') : Passed S C s s'' := by
  refine ⟨h.framed.trans h'.framed, h.grows.trans h'.grows, h'.after, fun hreach hexc => ?_⟩
  -- the flag of the guard is never taken back, so it is not set in between either
  have hexc' : s'.guard.exceeded = false :=
    Bool.eq_false_iff.2 fun he => Bool.false_ne_true (hexc.symm.trans (h'.framed.exceeded he))
  exact (h'.tidy hreach hexc).trans (h.tidy hreach hexc')

/-- A state that only differs in the universe, which has grown, passes the property on as well. -/
theorem Passing.grow {c : Chronicle} (hs : Passing S C s) (hg : s.univ.Grows c.univ) :
    Passing S C { s with chronicle := c } := by
  refine ⟨hg.after, hg.owned hs.owned, hg.signature.trans hs.signature, fun h => ?_⟩
  obtain ⟨hsource, hbears⟩ := hs.entries h
  refine ⟨hg.contains hsource, (hbears.grow hg).imp fun hC => ?_⟩
  rwa [hg.typeAt hsource] at hC

variable (S C) in
/-- Work begun in `s` passes the property on and ends with `Q`. -/
def Keeps (s : Search) (x : SearchM α) (Q : α → Search → Prop) : Prop :=
  Passed S C s (x s).2 ∧ Q (x s).1 (x s).2

namespace Keeps

variable {Q Q' : α → Search → Prop}

theorem pure (hs : Passing S C s) {r : α} (h : Q r s) : Keeps S C s (pure r) Q :=
  ⟨.refl hs, h⟩

theorem bind {x : SearchM α} {f : α → SearchM β} {R : β → Search → Prop} (hx : Keeps S C s x Q)
    (hf : ∀ r s', Passed S C s s' → Q r s' → Keeps S C s' (f r) R) :
    Keeps S C s (x >>= f) R := by
  obtain ⟨hp, hq⟩ := hx
  obtain ⟨hp', hr⟩ := hf _ _ hp hq
  exact ⟨hp.trans hp', hr⟩

theorem imp {x : SearchM α} (hx : Keeps S C s x Q)
    (h : ∀ r s', Passed S C s s' → Q r s' → Q' r s') : Keeps S C s x Q' :=
  ⟨hx.1, h _ _ hx.1 hx.2⟩

theorem lift (hs : Passing S C s) {x : UniverseM α} {P : α → Universe → Prop} (hq : Quiet x)
    (hx : UniverseM.Ensures s.univ x P) :
    Keeps S C s (liftM x : SearchM α) fun r s' => P r s'.univ := by
  obtain ⟨hg, hp⟩ := hx s.chronicle.journal
  exact ⟨⟨Frames.lift hq s, hg, hs.grow hg, fun _ _ => rfl⟩, hp⟩

theorem view {f : Universe → α} {k : α → SearchM β} {R : β → Search → Prop}
    (h : Keeps S C s (k (f s.univ)) R) :
    Keeps S C s ((liftM (UniverseM.view f) : SearchM α) >>= k) R :=
  h

theorem get {k : Search → SearchM β} {R : β → Search → Prop} (h : Keeps S C s (k s) R) :
    Keeps S C s (get >>= k) R :=
  h

theorem exceeded {k : Bool → SearchM β} {R : β → Search → Prop}
    (h : Keeps S C s (k s.guard.exceeded) R) : Keeps S C s (exceeded >>= k) R :=
  h

theorem lookup (hs : Passing S C s) (pair : Pair) :
    Keeps S C s (lookup pair) fun r s' => r = s.verdicts.entries[pair]? ∧ s'.univ = s.univ := by
  refine ⟨⟨lookup_frames pair s, .refl hs.consistent, ⟨hs.consistent, hs.owned, hs.signature,
    fun {p v} h => ?_⟩, fun _ _ => rfl⟩, s.verdicts.lookup_fst pair, rfl⟩
  change (s.verdicts.lookup pair).2.entries[p]? = some v at h
  rw [Verdicts.entries_lookup] at h
  exact hs.entries h

theorem isAssignable {source target : Handle} (hs : Passing S C s) (ha : s.univ.Reads source a)
    (hb : s.univ.Reads target b) :
    Keeps S C s (liftM (UniverseM.isAssignable source target) : SearchM Bool) fun _ _ => True :=
  (lift hs (isAssignable_simple _ _).quiet (UniverseM.isAssignable_ensures hs.consistent ha hb)).imp
    fun _ _ _ _ => trivial

end Keeps

variable (S C) in
/-- The answers to nested questions are known, and have the property if the sources do. -/
def Carries (nested : Nested SearchM) : Prop :=
  ∀ {s : Search} {source target : Handle} {a b : Ty}, Passing S C s → s.univ.Reads source a →
    s.univ.Reads target b →
    Keeps S C s (nested source target) fun r s' => s'.univ.Bears C (C a) r

/-! ## From bounds to questions -/

section Nested

variable {nested : Nested SearchM} (hC : S.Passes C) (hn : Carries S C nested)
include hn

theorem meetsBound_keeps {arg bound : Handle} (hs : Passing S C s) (ha : s.univ.Reads arg a)
    (hb : s.univ.Reads bound b) : Keeps S C s (meetsBound nested arg bound) fun _ _ => True := by
  unfold meetsBound
  split_ifs
  · exact .pure hs trivial
  · refine Keeps.bind (.isAssignable hs ha hb) fun r s₁ h₁ _ => ?_
    split_ifs
    · exact .pure h₁.after trivial
    · exact Keeps.bind (hn h₁.after (h₁.grows.reads ha) (h₁.grows.reads hb))
        fun r s₂ h₂ _ => .pure h₂.after trivial

theorem meetsBounds_keeps {arg : Handle} {bounds : List Handle} {bs : List Ty}
    (hs : Passing S C s) (ha : s.univ.Reads arg a) (hbs : List.Forall₂ s.univ.Reads bounds bs) :
    Keeps S C s (meetsBounds nested arg bounds) fun _ _ => True := by
  induction bounds generalizing s bs with
  | nil => exact .pure hs trivial
  | cons bound bounds ih =>
    obtain ⟨b, bs, hb, hrest, rfl⟩ := List.forall₂_cons_left_iff.1 hbs
    refine Keeps.bind (meetsBound_keeps hn hs ha hb) fun r s₁ h₁ _ => ?_
    split_ifs
    · exact ih h₁.after (h₁.grows.reads ha) (h₁.grows.forall₂_reads hrest)
    · exact .pure h₁.after trivial

theorem matchArgument_keeps {arg target : Handle} (hs : Passing S C s) (ha : s.univ.Reads arg a)
    (hb : s.univ.Reads target b) :
    Keeps S C s (matchArgument nested arg target) fun r s' => s'.univ.Bears C (C a) r := by
  unfold matchArgument
  refine Keeps.view ?_
  rw [hs.consistent.isParameter_of_reads hb]
  split_ifs with hparam he
  · cases b with
    | plain _ => cases hparam
    | applied _ _ => cases hparam
    | param owner index =>
      refine Keeps.view (Keeps.bind (meetsBounds_keeps hn hs ha
        (hs.consistent.constraints_of_reads hb)) fun r s₁ h₁ _ => .pure h₁.after ?_)
      split_ifs
      · exact .some (h₁.grows.reads ha) id
      · exact .none
  · exact .pure hs (.some ha id)
  · refine Keeps.bind (.isAssignable hs ha hb) fun r s₁ h₁ _ => ?_
    split_ifs
    · exact .pure h₁.after (.some (h₁.grows.reads ha) id)
    · exact hn h₁.after (h₁.grows.reads ha) (h₁.grows.reads hb)

theorem matchArguments_keeps {args targets : List Handle} {as bs : List Ty} (hs : Passing S C s)
    (has : List.Forall₂ s.univ.Reads args as) (hbs : List.Forall₂ s.univ.Reads targets bs)
    (hlen : as.length = bs.length) :
    Keeps S C s (matchArguments nested (args.zip targets)) fun r s' =>
      ∀ tys ∈ r, ∃ ts, List.Forall₂ s'.univ.Reads tys ts ∧ ts.length = as.length ∧
        ((∀ a ∈ as, C a) → ∀ t ∈ ts, C t) := by
  induction as generalizing s bs args targets with
  | nil =>
    obtain rfl := List.forall₂_nil_right_iff.1 has
    refine .pure hs fun tys h => ?_
    cases h
    exact ⟨[], .nil, rfl, fun _ => by simp⟩
  | cons a as ih =>
    obtain ⟨arg, args, ha, hargs, rfl⟩ := List.forall₂_cons_right_iff.1 has
    cases bs with
    | nil => cases hlen
    | cons b bs =>
      obtain ⟨target, targets, hb, htargets, rfl⟩ := List.forall₂_cons_right_iff.1 hbs
      rw [List.zip_cons_cons, matchArguments]
      refine Keeps.bind (matchArgument_keeps hn hs ha hb) fun r s₁ h₁ hr => ?_
      cases r with
      | none => exact .pure h₁.after (by simp)
      | some ty =>
        obtain ⟨t, ht, hCt⟩ := hr ty rfl
        refine Keeps.bind (ih h₁.after (h₁.grows.forall₂_reads hargs)
          (h₁.grows.forall₂_reads htargets) (Nat.succ.inj hlen)) fun rs s₂ h₂ hrs => ?_
        cases rs with
        | none => exact .pure h₂.after (by simp)
        | some tys =>
          obtain ⟨ts, hts, htlen, hCts⟩ := hrs tys rfl
          refine .pure h₂.after fun _ h => ?_
          cases h
          refine ⟨t :: ts, .cons (h₂.grows.reads ht) hts, congrArg (· + 1) htlen, fun hCas => ?_⟩
          obtain ⟨hCa, hCas⟩ := List.forall_mem_cons.1 hCas
          exact List.forall_mem_cons.2 ⟨hCt hCa, hCts hCas⟩

include hC

/-- The closed form of a target is the candidate with other arguments. -/
theorem satisfy_keeps {candidate target : Handle} {decl : DeclId} {as bs : List Ty}
    (hs : Passing S C s) (hc : s.univ.Reads candidate (.applied decl as))
    (ht : s.univ.Reads target (.applied decl bs)) :
    Keeps S C s (satisfy nested candidate target) fun r s' =>
      s'.univ.Bears C (C (.applied decl as)) r := by
  have has : List.Forall₂ _ _ as := hs.consistent.arguments_of_reads hc
  have hbs : List.Forall₂ _ _ bs := hs.consistent.arguments_of_reads ht
  unfold satisfy
  refine Keeps.view (Keeps.view ?_)
  split_ifs with hlen
  · rw [has.length_eq, hbs.length_eq] at hlen
    refine Keeps.bind (matchArguments_keeps hn hs has hbs hlen) fun r s₁ h₁ hr => ?_
    cases r with
    | none => exact .pure h₁.after .none
    | some tys =>
      obtain ⟨ts, hts, htlen, hCts⟩ := hr tys rfl
      obtain ⟨d, hd, harity, hne⟩ := h₁.after.consistent.exists_catalog_of_reads (h₁.grows.reads hc)
      obtain ⟨definition, hown, -⟩ := h₁.after.owned hd
      have htne : ts ≠ [] := fun he => hne (List.eq_nil_of_length_eq_zero (by rw [← htlen, he]; rfl))
      refine Keeps.view ?_
      rw [h₁.after.consistent.definition?_of_reads (h₁.grows.reads ht), hown]
      refine (Keeps.lift h₁.after (makeGeneric_simple _ _).quiet (makeGeneric_ensures h₁.after.consistent
        h₁.after.owned hd hown (harity.trans htlen.symm) htne hts)).imp ?_
      rintro _ s₂ h₂ ⟨ty, rfl, hty⟩
      exact .some hty fun hCc => hC.rebuilt hCc htlen (hCts (hC.args hCc))
  · exact .pure hs .none

theorem firstSatisfying_keeps {definition target : Handle} {candidates : List Handle}
    {decl : DeclId} {bs cs : List Ty} (hs : Passing S C s)
    (hown : s.univ.ownType? decl = some definition)
    (hcs : List.Forall₂ s.univ.Reads candidates cs) (ht : s.univ.Reads target (.applied decl bs)) :
    Keeps S C s (firstSatisfying nested definition target candidates) fun r s' =>
      s'.univ.Bears C (∀ c ∈ cs, C c) r := by
  induction candidates generalizing s cs with
  | nil => exact .pure hs .none
  | cons candidate candidates ih =>
    obtain ⟨c, cs, hc, hrest, rfl⟩ := List.forall₂_cons_left_iff.1 hcs
    obtain ⟨d, hd, -⟩ := hs.consistent.exists_catalog_of_reads ht
    rw [firstSatisfying]
    refine Keeps.view ?_
    split_ifs with hbuilt
    · obtain ⟨as, rfl⟩ := Ty.isBuiltFrom_iff.1
        ((hs.consistent.definition?_eq_some_iff hs.owned hd hown hc).1 hbuilt)
      refine Keeps.bind (satisfy_keeps hC hn hs hc ht) fun r s₁ h₁ hr => ?_
      cases r with
      | some ty => exact .pure h₁.after (hr.imp fun h => (List.forall_mem_cons.1 h).1)
      | none =>
        exact (ih h₁.after (by rw [h₁.grows.ownType?, hown]) (h₁.grows.forall₂_reads hrest)
          (h₁.grows.reads ht)).imp fun _ _ _ hr => hr.imp fun h => (List.forall_mem_cons.1 h).2
    · exact (ih hs hown hrest ht).imp fun _ _ _ hr => hr.imp fun h => (List.forall_mem_cons.1 h).2

theorem resolveInterface_keeps {definition source target : Handle} {decl : DeclId} {bs : List Ty}
    (hs : Passing S C s) (hown : s.univ.ownType? decl = some definition)
    (ha : s.univ.Reads source a) (ht : s.univ.Reads target (.applied decl bs)) :
    Keeps S C s (resolveInterface nested definition source target) fun r s' =>
      s'.univ.Bears C (C a) r := by
  unfold resolveInterface
  refine Keeps.bind (firstSatisfying_keeps hC hn hs hown (.cons ha .nil) ht) fun r s₁ h₁ hr => ?_
  cases r with
  | some ty => exact .pure h₁.after (hr.imp (by simp))
  | none =>
    refine Keeps.bind (Keeps.lift h₁.after (interfaces_simple _).quiet
      (interfaces_ensures h₁.after.consistent (h₁.grows.reads ha))) fun closure s₂ h₂ hclosure => ?_
    rw [h₁.after.signature] at hclosure
    have h₁₂ := h₁.trans h₂
    exact (firstSatisfying_keeps hC hn h₂.after (by rw [h₁₂.grows.ownType?, hown]) hclosure
      (h₁₂.grows.reads ht)).imp fun _ _ _ hr => hr.imp hC.candidates

end Nested

/-- A walk along a base chain that ends within reach is not refused. -/
theorem firstWithDefinition_keeps (hC : S.Passes C) {definition origin ty : Handle} {steps : Nat}
    (hs : Passing S C s) (ha : s.univ.Reads ty a)
    (hlen : S.WithinReach → (S.chainFrom (steps + 1) a).length ≤ steps) :
    Keeps S C s (firstWithDefinition definition origin steps ty) fun r s' =>
      s'.univ.Bears C (C a) r := by
  induction steps generalizing s ty a with
  | zero =>
    refine ⟨⟨congruence_frames.firstWithDefinition definition origin 0 ty s, .refl hs.consistent,
      ⟨hs.consistent, hs.owned, hs.signature, hs.entries⟩, fun hreach => ?_⟩, .none⟩
    exact absurd (hlen hreach) (Nat.not_le_of_gt (Signature.length_chainFrom_pos 0 a))
  | succ n ih =>
    rw [firstWithDefinition]
    refine Keeps.view ?_
    split_ifs
    · exact .pure hs (.some ha id)
    · refine Keeps.bind (Keeps.lift hs (baseType_simple _).quiet (baseType_ensures hs.consistent ha))
        fun r s₁ h₁ hr => ?_
      rw [hs.signature] at hr
      rw [Signature.chainFrom] at hlen
      generalize hbase : S.baseOf a = base at hr hlen
      cases hr with
      | none => exact .pure h₁.after .none
      | some hr =>
        refine (ih h₁.after hr fun hreach => Nat.le_of_succ_le_succ (hlen hreach)).imp ?_
        exact fun _ _ _ hr => hr.imp fun hCa => hC.base hCa hbase

theorem resolveClosed_keeps {source target : Handle} (hs : Passing S C s)
    (ha : s.univ.Reads source a) (hb : s.univ.Reads target b) :
    Keeps S C s (resolveClosed source target) fun r s' => s'.univ.Bears C (C a) r := by
  unfold resolveClosed
  refine Keeps.view ?_
  split_ifs
  · exact .pure hs .none
  · refine Keeps.bind (.isAssignable hs ha hb) fun r s₁ h₁ _ => ?_
    split_ifs
    · exact .pure h₁.after (.some (h₁.grows.reads ha) id)
    · exact .pure h₁.after .none

theorem resolve_keeps (hC : S.Passes C) {nested : Nested SearchM} (hn : Carries S C nested)
    {source target : Handle} (hs : Passing S C s) (ha : s.univ.Reads source a)
    (hb : s.univ.Reads target b) :
    Keeps S C s (resolve nested source target) fun r s' => s'.univ.Bears C (C a) r := by
  unfold resolve
  refine Keeps.view ?_
  rw [hs.consistent.isGeneric_of_reads hb]
  split_ifs with hgen
  · cases b with
    | plain _ => cases hgen
    | param _ _ => cases hgen
    | applied decl bs =>
      obtain ⟨d, hd, -⟩ := hs.consistent.exists_catalog_of_reads hb
      obtain ⟨definition, hown, -⟩ := hs.owned hd
      refine Keeps.view ?_
      rw [hs.consistent.definition?_of_reads hb, hown]
      refine Keeps.view ?_
      split_ifs
      · exact resolveInterface_keeps hC hn hs hown ha hb
      · exact firstWithDefinition_keeps hC hs ha fun hreach => hreach a
  · exact resolveClosed_keeps hs ha hb

/-! ## Questions -/

variable {pair : Pair} {n : Nat}

variable (S C) in
/-- The answers to questions on two types are known, and have the property if the sources do. -/
def CarriesPairs (evaluate : Pair → SearchM (Option Handle)) : Prop :=
  ∀ {s : Search} {pair : Pair} {a b : Ty}, Passing S C s → s.univ.Reads pair.source a →
    s.univ.Reads pair.target b →
    Keeps S C s (evaluate pair) fun r s' => s'.univ.Bears C (C a) r

theorem Passing.bears_of_entry (hs : Passing S C s) (ha : s.univ.Reads pair.source a)
    {verdict : Verdict} (h : s.verdicts.entries[pair]? = some verdict) :
    s.univ.Bears C (C a) verdict.substitution? :=
  (hs.entries h).2.imp fun hCa => ha.2 ▸ hCa

theorem substituteBy_carries {evaluate : Pair → SearchM (Option Handle)}
    (he : CarriesPairs S C evaluate) : Carries S C (substituteBy evaluate) := by
  intro s source target a b hs ha hb
  unfold substituteBy
  split_ifs
  · exact .pure hs (.some ha id)
  · refine Keeps.bind (.lookup hs _) ?_
    rintro _ s₁ h₁ ⟨rfl, -⟩
    cases hfound : s.verdicts.entries[(⟨source, target⟩ : Pair)]? with
    | some verdict =>
      refine Keeps.bind (Keeps.lift h₁.after (.note nofun) (.note h₁.after.consistent _))
        fun _ s₂ h₂ _ => .pure h₂.after ?_
      exact (hs.bears_of_entry ha hfound).grow (h₁.trans h₂).grows
    | none => exact he h₁.after (h₁.grows.reads ha) (h₁.grows.reads hb)

/-- Recording a verdict that passes the property on. -/
theorem Passing.record {r : Option Handle} (hs : Passing S C s) (journal : Journal)
    (ha : s.univ.Reads pair.source a) (hr : s.univ.Bears C (C a) r) :
    Passing S C { s with
      verdicts := (s.verdicts.record pair (.ofSubstitution r)).2
      chronicle := { s.chronicle with journal } } := by
  refine ⟨hs.consistent, hs.owned, hs.signature, fun {p v} h => ?_⟩
  rcases entries_record_cases h with h | ⟨rfl, rfl⟩
  · exact hs.entries h
  · rw [Verdict.substitution?_ofSubstitution]
    exact ⟨ha.1, hr.imp fun hC => ha.2 ▸ hC⟩

/-- Ending the work on a pair passes on what was computed, or the verdict that stands. -/
theorem settle_passes {place before : Nat} {around : Option Nat} {r : Option Handle}
    (hs : Passing S C s) (ha : s.univ.Reads pair.source a) (hr : s.univ.Bears C (C a) r) :
    Passing S C (settle pair place around before r s).2 ∧
      (settle pair place around before r s).2.univ.Bears C (C a)
        (settle pair place around before r s).1 := by
  have hpopped : Passing S C (s.popped pair place around) :=
    ⟨hs.consistent, hs.owned, hs.signature, hs.entries⟩
  by_cases hw : s.provisional place ∨ s.refusals ≠ before
  · obtain ⟨j, hj⟩ := @settle_of_withheld s pair place before around r hw
    rw [hj]
    exact ⟨hpopped.grow (.refl hs.consistent), hr⟩
  · rw [not_or, Bool.not_eq_true, not_not] at hw
    obtain ⟨hprov, rfl⟩ := hw
    obtain ⟨j, hj⟩ := @settle_of_recorded s pair place around r hprov
    have hafter := hpopped.record j ha hr
    rw [hj]
    exact ⟨hafter,
      hafter.bears_of_entry ha (s.verdicts.getElem?_entries_record pair (.ofSubstitution r))⟩

/-- A question that is not let in is answered by its source, or not at all. -/
theorem evaluate_keeps_of_refused (levels : Nat) {admission : Admission} (hs : Passing S C s)
    (h : s.guard.enter pair = (admission, { s.guard with steps := n, exceeded := true }))
    (hadm : admission.isExceeded) :
    Keeps S C s (evaluate levels pair) fun r s' => s'.univ.Bears C (C a) r := by
  have hframed := evaluate_frames levels pair s
  obtain ⟨j, hj⟩ := evaluate_of_refused levels h hadm
  unfold Keeps
  rw [hj] at hframed ⊢
  exact ⟨⟨hframed, .refl hs.consistent, ⟨hs.consistent, hs.owned, hs.signature, hs.entries⟩,
    fun _ hexc => (by cases hexc)⟩, .none⟩

theorem evaluate_keeps_of_cycle (levels : Nat) (hs : Passing S C s)
    (h : s.guard.enter pair = (.cycle, { s.guard with steps := n }))
    (ha : s.univ.Reads pair.source a) :
    Keeps S C s (evaluate levels pair) fun r s' => s'.univ.Bears C (C a) r := by
  have hframed := evaluate_frames levels pair s
  obtain ⟨j, hj⟩ := evaluate_of_cycle levels h
  unfold Keeps
  rw [hj] at hframed ⊢
  exact ⟨⟨hframed, .refl hs.consistent, ⟨hs.consistent, hs.owned, hs.signature, hs.entries⟩,
    fun _ _ => rfl⟩, .some ha id⟩

/-- The search passes on what its sources have, by induction on the depth that is left. -/
theorem evaluate_carries (hC : S.Passes C) (levels : Nat) : CarriesPairs S C (evaluate levels) := by
  induction levels with
  | zero =>
    intro s pair a b hs ha hb
    rcases enter_cases s.guard pair with ⟨_, n, hadm, h⟩ | ⟨-, n, h⟩ | ⟨-, -, n, h⟩
    · exact evaluate_keeps_of_refused 0 hs h hadm
    · exact evaluate_keeps_of_cycle 0 hs h ha
    · have hframed := evaluate_frames 0 pair s
      unfold Keeps
      rw [evaluate_zero_of_entered h] at hframed ⊢
      exact ⟨⟨hframed, .refl hs.consistent, ⟨hs.consistent, hs.owned, hs.signature, hs.entries⟩,
        fun _ _ => rfl⟩, .none⟩
  | succ levels ih =>
    intro s pair a b hs ha hb
    rcases enter_cases s.guard pair with ⟨_, n, hadm, h⟩ | ⟨-, n, h⟩ | ⟨-, -, n, h⟩
    · exact evaluate_keeps_of_refused (levels + 1) hs h hadm
    · exact evaluate_keeps_of_cycle (levels + 1) hs h ha
    · have hpush : Passing S C (s.pushed pair n) := ⟨hs.consistent, hs.owned, hs.signature, hs.entries⟩
      obtain ⟨h₁, hr⟩ := resolve_keeps hC (substituteBy_carries ih) hpush ha hb
      have hframed := evaluate_frames (levels + 1) pair s
      unfold Keeps
      rw [evaluate_of_pushed h] at hframed ⊢
      obtain ⟨hafter, hbears⟩ := settle_passes h₁.after (h₁.grows.reads ha) hr
      refine ⟨⟨hframed, ?_, hafter, fun hreach hexc => ?_⟩, hbears⟩
      · rw [univ_settle]
        exact h₁.grows
      · rw [exceeded_settle] at hexc
        rw [refusals_settle]
        exact h₁.tidy hreach hexc

/-- The answer to a query is known, and has the property if the source does. -/
theorem check_keeps (hC : S.Passes C) {source target : Handle} (hs : Passing S C s)
    (ha : s.univ.Reads source a) (hb : s.univ.Reads target b) :
    Keeps S C s (check (some source) (some target)) fun answer s' =>
      s'.univ.Bears C (C a) answer.substitution := by
  rw [check_some]
  split_ifs
  · exact .pure hs (.some ha id)
  · refine Keeps.bind (.lookup hs _) ?_
    rintro _ s₁ h₁ ⟨rfl, -⟩
    cases hfound : s.verdicts.entries[(⟨source, target⟩ : Pair)]? with
    | some verdict => exact .pure h₁.after ((hs.bears_of_entry ha hfound).grow h₁.grows)
    | none =>
      refine Keeps.get (Keeps.bind (evaluate_carries hC _ h₁.after (h₁.grows.reads ha)
        (h₁.grows.reads hb)) fun r s₂ h₂ hr => Keeps.exceeded (.pure h₂.after hr))

/-- So it is with a query in which types are absent. -/
theorem check_passes (hC : S.Passes C) {source target : Option Handle} (hs : Passing S C s)
    (hsource : ∀ ty ∈ source, s.univ.contains ty) (htarget : ∀ ty ∈ target, s.univ.contains ty) :
    Passed S C s (check source target s).2 := by
  cases source with
  | none => exact .refl hs
  | some source =>
    cases target with
    | none => exact .refl hs
    | some target =>
      exact (check_keeps hC hs (Universe.reads_typeAt (hsource source rfl))
        (Universe.reads_typeAt (htarget target rfl))).1

end Search

end Subtyping
