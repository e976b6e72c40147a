import Subtyping.Proofs.SearchInvariant

/-!
# What answers mean

From bounds up to questions, every part of a search decides its share of the substitution relation
and finds the type that goes with it (`Search.Finds`), given that nested questions are answered so
(`Search.Answers`). The search itself answers so by induction on the depth that is left
(`Search.evaluate_answers`): a pair that needs no pair further out is justified by what holds under
it alone, and a type that was assumed for a pair cannot come back into the answer to that pair,
since types only pass from the arguments of a target to the target.
-/

namespace Subtyping.Search

open UniverseM

open Solver (Advances)

universe v

variable {S : Signature} {levels since since' : Nat} {s s' : Search} {a b : Ty}

variable (S) in
/-- A question is decided, and the type that comes with a yes is the expected one, unless a type was
assumed for a target smaller than `n`. -/
structure Finds (since : Nat) (s : Search) (P : (Ty → Ty → Prop) → Prop) (n : Nat)
    (expected : Option Ty) (r : Option Handle) : Prop where
  decided : Decided S since s P r.isSome
  resolved : ∀ ty ∈ r, ∃ t, s.univ.Reads ty t ∧ Settles S since s n (expected = some t)

namespace Finds

variable {P P' : (Ty → Ty → Prop) → Prop} {n k : Nat} {expected expected' : Option Ty}
  {r : Option Handle} {ty : Handle} {t : Ty}

protected theorem none (h : Refused since s ∨ ¬ P S.Sub) : Finds S since s P n expected none :=
  ⟨⟨by simp, fun _ => h⟩, by simp⟩

protected theorem some (h : P (S.Under s.leaned)) (ht : s.univ.Reads ty t)
    (hset : Settles S since s n (expected = some t)) : Finds S since s P n expected (some ty) := by
  refine ⟨⟨fun _ => h, by simp⟩, fun _ hty => ?_⟩
  cases hty
  exact ⟨t, ht, hset⟩

/-- An exact result. -/
theorem of_rel (hr : Option.Rel s.univ.Reads r expected)
    (hP : expected.isSome → P (S.Under s.leaned)) (hP' : P S.Sub → expected.isSome) :
    Finds S since s P n expected r := by
  cases hr with
  | none => exact .none (Or.inr fun h => Bool.false_ne_true (hP' h))
  | some ht => exact .some (hP rfl) ht (.of rfl)

theorem before (hle : since ≤ since') (h : Finds S since' s P n expected r) :
    Finds S since s P n expected r := by
  refine ⟨h.decided.before hle, fun ty hty => ?_⟩
  obtain ⟨t, ht, hset⟩ := h.resolved ty hty
  exact ⟨t, ht, hset.before hle⟩

/-- What was found goes on to hold as the search goes on. -/
theorem after (hs : Sound S levels s) (hl : Leads S levels s s') (h : Finds S since s P n expected r)
    (hP : P (S.Under s.leaned) → P (S.Under s'.leaned)) : Finds S since s' P n expected r := by
  refine ⟨⟨fun hr => hP (h.decided.holds hr), fun hr => ?_⟩, fun ty hty => ?_⟩
  · exact (h.decided.fails hr).imp_left (·.after hl.framed)
  · obtain ⟨t, ht, hset⟩ := h.resolved ty hty
    exact ⟨t, hl.grows.reads ht, hset.after hs hl⟩

theorem imp (h : Finds S since s P n expected r) (hP : P (S.Under s.leaned) → P' (S.Under s.leaned))
    (hP' : P' S.Sub → P S.Sub) (hn : n ≤ k) (ht : ∀ t, expected = some t → expected' = some t) :
    Finds S since s P' k expected' r := by
  refine ⟨h.decided.imp hP hP', fun ty hty => ?_⟩
  obtain ⟨t, hr, hset⟩ := h.resolved ty hty
  exact ⟨t, hr, hset.imp hn (ht t)⟩

end Finds

variable (S) in
/-- A pair is decided, and the type that comes with a yes is the resolved one. -/
abbrev Answered (since : Nat) (s : Search) (a b : Ty) (r : Option Handle) : Prop :=
  Finds S since s (· a b) (sizeOf b + 1) (S.res a b) r

variable {m : Type → Type v} [Monad m] [MonadLiftT UniverseM m] [MonadLiftT SearchM m] {L : Logic S m}

/-- Nested questions are answered. -/
def Answers (L : Logic S m) (levels : Nat) (nested : Nested m) : Prop :=
  ∀ {s : Search} {source target : Handle} {a b : Ty}, Sound S levels s → s.univ.Reads source a →
    s.univ.Reads target b →
    Ensures L levels s (nested source target) fun r s' => Answered S s.refusals s' a b r

/-- Native assignability is that of the signature. -/
theorem isAssignable_ensures {source target : Handle} (hs : Sound S levels s)
    (ha : s.univ.Reads source a) (hb : s.univ.Reads target b) :
    Ensures L levels s (liftM (isAssignable source target) : m Bool) fun r _ =>
      r = S.isAssignable a b :=
  (Ensures.lift hs (isAssignable_simple _ _).quiet
    (UniverseM.isAssignable_ensures hs.consistent ha hb) fun _ h => h).imp
      fun r _ _ h => by rw [h, hs.signature]

section Nested

variable {nested : Nested m} (hn : Answers L levels nested)
include hn

theorem meetsBound_ensures {arg bound : Handle} (hs : Sound S levels s)
    (ha : s.univ.Reads arg a) (hb : s.univ.Reads bound b) :
    Ensures L levels s (meetsBound nested arg bound) fun r s' =>
      Decided S s.refusals s' (S.Accepts · a b) r := by
  unfold meetsBound
  split_ifs with he
  · have hab : a = b := ((hs.consistent.eq_iff_of_reads hb ha).1 he).symm
    exact .pure hs (.of_iff (by simp [Signature.Accepts, hab]) (by simp [Signature.Accepts, hab]))
  · have hne : a ≠ b := fun h => he ((hs.consistent.eq_iff_of_reads hb ha).2 h.symm)
    refine Ensures.bind (isAssignable_ensures hs ha hb) fun r s₁ h₁ hr => ?_
    split_ifs with hassign
    · rw [hr] at hassign
      exact .pure h₁.after (.of_iff (by simp [Signature.Accepts, hassign])
        (by simp [Signature.Accepts, hassign]))
    · rw [hr] at hassign
      refine Ensures.bind (hn h₁.after (h₁.grows.reads ha) (h₁.grows.reads hb))
        fun r s₂ h₂ hr => .pure h₂.after ?_
      refine (hr.decided.before h₁.framed.refusals).imp (fun h => Or.inr (Or.inr h)) ?_
      rintro (h | h | h)
      · exact absurd h hne
      · exact absurd h hassign
      · exact h

theorem meetsBounds_ensures {arg : Handle} {bounds : List Handle} {bs : List Ty}
    (hs : Sound S levels s) (ha : s.univ.Reads arg a)
    (hbs : List.Forall₂ s.univ.Reads bounds bs) :
    Ensures L levels s (meetsBounds nested arg bounds) fun r s' =>
      Decided S s.refusals s' (fun R => ∀ b ∈ bs, S.Accepts R a b) r := by
  induction bounds generalizing s bs with
  | nil =>
    obtain rfl := List.forall₂_nil_left_iff.1 hbs
    exact .pure hs (.of_iff (by simp) (by simp))
  | cons bound bounds ih =>
    obtain ⟨b, bs, hb, hrest, rfl⟩ := List.forall₂_cons_left_iff.1 hbs
    refine Ensures.bind (meetsBound_ensures hn hs ha hb) fun r s₁ h₁ hr => ?_
    cases r with
    | false =>
      refine .pure h₁.after ⟨nofun, fun _ => (hr.fails rfl).imp_right fun hn h => ?_⟩
      exact hn (h b List.mem_cons_self)
    | true =>
      refine (ih h₁.after (h₁.grows.reads ha) (h₁.grows.forall₂_reads hrest)).imp
        fun r s₂ h₂ hr' => ?_
      refine ⟨fun h => ?_, fun h => ?_⟩
      · refine List.forall_mem_cons.2 ⟨?_, hr'.holds h⟩
        exact (hr.holds rfl).mono fun _ _ => h₂.under h₁.after
      · refine ((hr'.before h₁.framed.refusals).fails h).imp_right fun hn hall => ?_
        exact hn (List.forall_mem_cons.1 hall).2

theorem matchArgument_ensures {arg target : Handle} (hs : Sound S levels s)
    (ha : s.univ.Reads arg a) (hb : s.univ.Reads target b) :
    Ensures L levels s (matchArgument nested arg target) fun r s' =>
      Finds S s.refusals s' (S.Meets · a b) (sizeOf b + 1) (some (S.resArg a b)) r := by
  unfold matchArgument
  refine Ensures.view hs fun v h₀ => ?_
  rw [hs.consistent.isParameter_of_reads hb]
  replace hs := h₀.after
  replace ha := h₀.grows.reads ha
  replace hb := h₀.grows.reads hb
  split_ifs with hparam he
  · refine Ensures.view hs fun w h₁ => ?_
    cases b with
    | plain _ => cases hparam
    | applied _ _ => cases hparam
    | param owner index =>
      have hbounds := h₁.grows.forall₂_reads (hs.consistent.constraints_of_reads hb)
      rw [hs.signature] at hbounds
      refine Ensures.bind (meetsBounds_ensures hn h₁.after (h₁.grows.reads ha) hbounds)
        fun r s₂ h₂ hr => ?_
      refine .pure h₂.after ?_
      cases r with
      | true =>
        refine .some (hr.holds rfl) ((h₁.trans h₂).grows.reads ha) (.of ?_)
        simp [Signature.resArg, Ty.isParam]
      | false => exact .none (hr.fails rfl)
  · rw [Bool.not_eq_true] at hparam
    have hab : a = b := ((hs.consistent.eq_iff_of_reads hb ha).1 he).symm
    refine .pure hs (.some ?_ ha (.of ?_))
    · exact (Signature.meets_iff_accepts hparam).2 (Or.inl hab)
    · simp [Signature.resArg, hab]
  · rw [Bool.not_eq_true] at hparam
    have hne : a ≠ b := fun h => he ((hs.consistent.eq_iff_of_reads hb ha).2 h.symm)
    refine Ensures.bind (isAssignable_ensures hs ha hb) fun r s₁ h₁ hr => ?_
    split_ifs with hassign
    · rw [hr] at hassign
      refine .pure h₁.after (.some ?_ (h₁.grows.reads ha) (.of ?_))
      · exact (Signature.meets_iff_accepts hparam).2 (Or.inr (Or.inl hassign))
      · simp [Signature.resArg, hassign]
    · rw [hr] at hassign
      refine (hn h₁.after (h₁.grows.reads ha) (h₁.grows.reads hb)).imp fun r s₂ h₂ hr => ?_
      refine (hr.before h₁.framed.refusals).imp (fun h => ?_) (fun h => ?_) (Nat.le_refl _) fun t hres => ?_
      · exact (Signature.meets_iff_accepts hparam).2 (Or.inr (Or.inr h))
      · rcases (Signature.meets_iff_accepts hparam).1 h with h | h | h
        · exact absurd h hne
        · exact absurd h hassign
        · exact h
      · simp [Signature.resArg, hparam, hne, hassign, hres]

/-- Arguments meet the target's arguments position by position. -/
theorem matchArguments_ensures {args targets : List Handle} {as bs : List Ty} {n : Nat}
    (hs : Sound S levels s) (has : List.Forall₂ s.univ.Reads args as)
    (hbs : List.Forall₂ s.univ.Reads targets bs) (hlen : as.length = bs.length)
    (hsize : ∀ b ∈ bs, sizeOf b < n) :
    Ensures L levels s (matchArguments nested (args.zip targets)) fun r s' =>
      Decided S s.refusals s' (fun R => List.Forall₂ (S.Meets R) as bs) r.isSome ∧
        ∀ tys ∈ r, ∃ ts, List.Forall₂ s'.univ.Reads tys ts ∧ ts.length = bs.length ∧
          Settles S s.refusals s' n (ts = S.resArgs as bs) := by
  induction as generalizing s bs args targets with
  | nil =>
    obtain rfl := List.forall₂_nil_right_iff.1 has
    obtain rfl := List.eq_nil_of_length_eq_zero hlen.symm
    refine .pure hs ⟨.of_iff (by simp) (by simp), fun tys h => ?_⟩
    cases h
    exact ⟨[], .nil, rfl, .of (by rw [Signature.resArgs]; simp)⟩
  | cons a as ih =>
    obtain ⟨arg, args, ha, hargs, rfl⟩ := List.forall₂_cons_right_iff.1 has
    cases bs with
    | nil => cases hlen
    | cons b bs =>
      obtain ⟨target, targets, hb, htargets, rfl⟩ := List.forall₂_cons_right_iff.1 hbs
      rw [List.zip_cons_cons, matchArguments]
      refine Ensures.bind (matchArgument_ensures hn hs ha hb) fun r s₁ h₁ hr => ?_
      cases r with
      | none =>
        refine .pure h₁.after ⟨⟨by simp, fun _ => (hr.decided.fails rfl).imp_right ?_⟩, by simp⟩
        exact fun hm h => hm (List.forall₂_cons.1 h).1
      | some ty =>
        obtain ⟨t, ht, hset⟩ := hr.resolved ty rfl
        refine Ensures.bind (ih h₁.after (h₁.grows.forall₂_reads hargs)
          (h₁.grows.forall₂_reads htargets) (Nat.succ.inj hlen) fun b hb => hsize b (List.mem_cons_of_mem _ hb))
          fun rs s₂ h₂ hrs => ?_
        obtain ⟨hdec, hval⟩ := hrs
        cases rs with
        | none =>
          refine .pure h₂.after ⟨⟨by simp, fun _ => ?_⟩, by simp⟩
          refine ((hdec.before h₁.framed.refusals).fails rfl).imp_right fun hm h => ?_
          exact hm (List.forall₂_cons.1 h).2
        | some tys =>
          obtain ⟨ts, hts, htlen, hset'⟩ := hval tys rfl
          refine .pure h₂.after ⟨⟨fun _ => ?_, by simp⟩, fun _ h => ?_⟩
          · refine .cons ?_ (hdec.holds rfl)
            exact (hr.decided.holds rfl).mono fun _ _ => h₂.under h₁.after
          · cases h
            refine ⟨t :: ts, .cons (h₂.grows.reads ht) hts, congrArg (· + 1) htlen, ?_⟩
            refine (hset.after h₁.after h₂).and (hset'.before h₁.framed.refusals) ?_ (Nat.le_refl n) ?_
            · exact hsize b List.mem_cons_self
            · rintro ⟨⟩ rfl
              rw [Signature.resArgs_cons]

/-- A candidate for a generic interface suits or does not. -/
theorem satisfy_ensures {candidate target : Handle} {decl : DeclId} {as bs : List Ty}
    (hs : Sound S levels s) (hc : s.univ.Reads candidate (.applied decl as))
    (ht : s.univ.Reads target (.applied decl bs)) :
    Ensures L levels s (satisfy nested candidate target) fun r s' =>
      Finds S s.refusals s' (S.Suits · decl bs (.applied decl as)) (sizeOf (Ty.applied decl bs))
        (some (.applied decl (S.resArgs as bs))) r := by
  have hsuits : ∀ R, S.Suits R decl bs (.applied decl as) ↔ List.Forall₂ (S.Meets R) as bs :=
    fun R => and_iff_right (by simp [Ty.isBuiltFrom])
  simp only [hsuits]
  unfold satisfy
  refine Ensures.view hs fun v hv => ?_
  have has : List.Forall₂ _ _ as := hs.consistent.arguments_of_reads hc
  replace has := hv.grows.forall₂_reads has
  replace ht := hv.grows.reads ht
  replace hs := hv.after
  refine Ensures.view hs fun w hw => ?_
  have hbs : List.Forall₂ _ _ bs := hs.consistent.arguments_of_reads ht
  replace has := hw.grows.forall₂_reads has
  replace hbs := hw.grows.forall₂_reads hbs
  replace ht := hw.grows.reads ht
  replace hs := hw.after
  split_ifs with hlen
  · rw [has.length_eq, hbs.length_eq] at hlen
    have hsize : ∀ b ∈ bs, sizeOf b < sizeOf (Ty.applied decl bs) := fun b hb => by
      have := List.sizeOf_lt_of_mem hb
      simp only [Ty.applied.sizeOf_spec]
      omega
    refine Ensures.bind (matchArguments_ensures hn hs has hbs hlen hsize)
      fun r s₁ h₁ hr => ?_
    obtain ⟨hdec, hval⟩ := hr
    cases r with
    | none => exact .pure h₁.after (.none (hdec.fails rfl))
    | some tys =>
      obtain ⟨ts, hts, htlen, hset⟩ := hval tys rfl
      obtain ⟨d, hd, harity, hne⟩ := h₁.after.consistent.exists_catalog_of_reads (h₁.grows.reads ht)
      obtain ⟨definition, hown, -⟩ := h₁.after.owned hd
      have hdef : s₁.univ.definition? target = some definition := by
        rw [h₁.after.consistent.definition?_of_reads (h₁.grows.reads ht)]
        exact hown
      refine Ensures.view h₁.after fun x h₂ => ?_
      rw [hdef]
      have htne : ts ≠ [] := fun he => hne (List.eq_nil_of_length_eq_zero (by rw [← htlen, he]; rfl))
      have hmake := makeGeneric_ensures h₂.after.consistent h₂.after.owned (h₂.grows.catalog ▸ hd)
        (by rw [h₂.grows.ownType?, hown]) (harity.trans htlen.symm) htne (h₂.grows.forall₂_reads hts)
      refine (Ensures.lift h₂.after (makeGeneric_simple _ _).quiet hmake ?_).imp ?_
      · rintro _ _ _ hg ⟨ty, rfl, hty⟩
        exact ⟨ty, rfl, hg.reads hty⟩
      rintro _ s₃ h₃ ⟨ty, rfl, hty⟩
      have h₂₃ := h₂.trans h₃
      refine .some ?_ hty ((hset.after h₁.after h₂₃).imp (Nat.le_refl _) ?_)
      · exact (hdec.holds rfl).imp fun _ _ => Signature.Meets.mono fun _ _ => h₂₃.under h₁.after
      · rintro rfl
        rfl
  · rw [has.length_eq, hbs.length_eq] at hlen
    exact .pure hs (.none (Or.inr fun h => hlen h.length_eq))

omit hn in
/-- Once the first candidate is turned down, what the others give is what all give. -/
theorem Finds.cons_candidate {decl : DeclId} {bs cs : List Ty} {c : Ty} {n : Nat} {s₁ s₂ : Search}
    {f : Ty → Ty} {r : Option Handle} (hc : Refused since s₁ ∨ ¬ S.Suits S.Sub decl bs c)
    (h₁ : since ≤ s₁.refusals) (h₂ : s₁.Framed s₂)
    (h : Finds S s₁.refusals s₂ (fun R => ∃ c ∈ cs, S.Suits R decl bs c) n
      ((S.firstSuited decl bs cs).map f) r) :
    Finds S since s₂ (fun R => ∃ c' ∈ c :: cs, S.Suits R decl bs c') n
      ((S.firstSuited decl bs (c :: cs)).map f) r := by
  have hyes : ∀ R, (∃ c ∈ cs, S.Suits R decl bs c) → ∃ c' ∈ c :: cs, S.Suits R decl bs c' :=
    fun R ⟨c, hc, hsuits⟩ => ⟨c, List.mem_cons_of_mem _ hc, hsuits⟩
  rcases hc with hr | hc
  · refine ⟨⟨fun hr => hyes _ (h.decided.holds hr), fun _ => Or.inl (hr.after h₂)⟩, fun ty hty => ?_⟩
    obtain ⟨t, ht, -⟩ := h.resolved ty hty
    exact ⟨t, ht, Or.inl (hr.after h₂)⟩
  · refine (h.before h₁).imp (hyes _) ?_ (Nat.le_refl _) fun t ht => ?_
    · rintro ⟨c', hc', hsuits⟩
      rcases List.mem_cons.1 hc' with rfl | hc'
      · exact absurd hsuits hc
      · exact ⟨c', hc', hsuits⟩
    · rwa [Signature.firstSuited_cons_of_not_suits hc]

/-- The first candidate that suits is found. -/
theorem firstSatisfying_ensures {definition target : Handle} {candidates : List Handle}
    {decl : DeclId} {bs cs : List Ty} (hs : Sound S levels s)
    (hown : s.univ.ownType? decl = some definition)
    (hcs : List.Forall₂ s.univ.Reads candidates cs) (ht : s.univ.Reads target (.applied decl bs)) :
    Ensures L levels s (firstSatisfying nested definition target candidates) fun r s' =>
      Finds S s.refusals s' (fun R => ∃ c ∈ cs, S.Suits R decl bs c) (sizeOf (Ty.applied decl bs))
        ((S.firstSuited decl bs cs).map fun c => .applied decl (S.resArgs c.args bs)) r := by
  induction candidates generalizing s cs with
  | nil =>
    obtain rfl := List.forall₂_nil_left_iff.1 hcs
    exact .pure hs (.none (Or.inr (by simp)))
  | cons candidate candidates ih =>
    obtain ⟨c, cs, hc, hrest, rfl⟩ := List.forall₂_cons_left_iff.1 hcs
    obtain ⟨d, hd, -⟩ := hs.consistent.exists_catalog_of_reads ht
    have hdef := hs.consistent.definition?_eq_some_iff hs.owned hd hown hc
    rw [firstSatisfying]
    refine Ensures.view hs fun v hv => ?_
    replace hc := hv.grows.reads hc
    replace hrest := hv.grows.forall₂_reads hrest
    replace ht := hv.grows.reads ht
    replace hown : (s.withSolver v).univ.ownType? decl = some definition := by
      rw [hv.grows.ownType?, hown]
    replace hs := hv.after
    split_ifs with hbuilt
    · obtain ⟨as, rfl⟩ := Ty.isBuiltFrom_iff.1 (hdef.1 hbuilt)
      refine Ensures.bind (satisfy_ensures hn hs hc ht) fun r s₁ h₁ hr => ?_
      cases r with
      | some ty =>
        obtain ⟨t, hty, hset⟩ := hr.resolved ty rfl
        have hsuits := hr.decided.holds rfl
        have hfirst : Settles S s.refusals s₁ 0
            (S.firstSuited decl bs (.applied decl as :: cs) = some (.applied decl as)) :=
          .of_sub fun hsub => Signature.firstSuited_cons_of_suits (hsuits.mono fun _ _ => (·.sub hsub))
        refine .pure h₁.after (.some ⟨_, List.mem_cons_self, hsuits⟩ hty ?_)
        refine hset.and hfirst (Nat.le_refl _) (Nat.zero_le _) fun hres hfirst => ?_
        rw [hfirst]
        exact hres
      | none =>
        refine (ih h₁.after (by rw [h₁.grows.ownType?, hown]) (h₁.grows.forall₂_reads hrest)
          (h₁.grows.reads ht)).imp fun r s₂ h₂ hr₂ => ?_
        exact hr₂.cons_candidate (hr.decided.fails rfl) h₁.framed.refusals h₂.framed
    · refine (ih hs hown hrest ht).imp fun r s₁ h₁ hr => ?_
      have hturned : Refused s.refusals (s.withSolver v) ∨ ¬ S.Suits S.Sub decl bs c :=
        Or.inr fun h => hbuilt (hdef.2 h.1)
      exact Finds.cons_candidate hturned (Nat.le_refl _) h₁.framed hr

/-- A generic interface takes the source, or else the first of its interfaces that suits. -/
theorem resolveInterface_ensures {definition source target : Handle} {decl : DeclId}
    {bs : List Ty} (hs : Sound S levels s) (hown : s.univ.ownType? decl = some definition)
    (ha : s.univ.Reads source a) (ht : s.univ.Reads target (.applied decl bs)) :
    Ensures L levels s (resolveInterface nested definition source target) fun r s' =>
      Finds S s.refusals s' (fun R => ∃ c ∈ a :: S.closureOf a, S.Suits R decl bs c)
        (sizeOf (Ty.applied decl bs))
        ((S.candidate? a decl bs).map fun c => .applied decl (S.resArgs c.args bs)) r := by
  unfold resolveInterface
  refine Ensures.bind (firstSatisfying_ensures hn hs hown (.cons ha .nil) ht) fun r s₁ h₁ hr => ?_
  cases r with
  | some ty =>
    obtain ⟨c, hc, hsuits⟩ := hr.decided.holds rfl
    obtain ⟨t, hty, hset⟩ := hr.resolved ty rfl
    refine .pure h₁.after (.some ⟨c, ?_, hsuits⟩ hty (hset.imp (Nat.le_refl _) fun h => ?_))
    · exact List.mem_cons.2 (Or.inl (List.mem_singleton.1 hc))
    · by_cases hsuits : S.Suits S.Sub decl bs a
      · rw [Signature.firstSuited_cons_of_suits hsuits] at h
        rw [Signature.candidate?, Signature.firstSuited_cons_of_suits hsuits, h]
      · rw [Signature.firstSuited_cons_of_not_suits hsuits] at h
        cases h
  | none =>
    refine Ensures.bind (Ensures.lift h₁.after (interfaces_simple _).quiet
      (interfaces_ensures h₁.after.consistent (h₁.grows.reads ha)) fun hg h => hg.forall₂_reads h)
      fun closure s₂ h₂ hclosure => ?_
    rw [h₁.after.signature] at hclosure
    have h₁₂ := h₁.trans h₂
    have hfail := (hr.decided.fails rfl).imp (Refused.after · h₂.framed) fun hno hsuits =>
      hno ⟨a, List.mem_cons_self, hsuits⟩
    refine (firstSatisfying_ensures hn h₂.after (by rw [h₁₂.grows.ownType?, hown]) hclosure
      (h₁₂.grows.reads ht)).imp fun r s₃ h₃ hr₃ => ?_
    exact hr₃.cons_candidate hfail h₁₂.framed.refusals h₃.framed

end Nested

theorem refuse_ensures (hs : Sound S levels s) :
    Ensures L levels s (liftM refuse : m Unit) fun _ _ => True :=
  .step ⟨refuse_frames s, .refl hs.consistent, hs.consistent, hs.owned, hs.signature, hs.entries,
    hs.known, hs.visiting, hs.room⟩ fun _ _ => trivial

/-- The walk along a base chain finds the first type that is built from the declaration, out of
those within its reach. -/
theorem firstWithDefinition_ensures {definition origin ty : Handle} {decl : DeclId}
    {d : Declaration} {steps : Nat} (hs : Sound S levels s)
    (hd : s.univ.catalog.get? decl = some d) (hown : s.univ.ownType? decl = some definition)
    (ha : s.univ.Reads ty a) :
    Ensures L levels s (firstWithDefinition definition origin steps ty) fun r s' =>
      Option.Rel s'.univ.Reads r ((S.chainFrom steps a).find? (·.isBuiltFrom decl)) := by
  induction steps generalizing s ty a with
  | zero =>
    refine Ensures.bind (refuse_ensures hs) fun _ s₁ h₁ _ => ?_
    exact Ensures.bind (Ensures.note h₁.after nofun) fun _ s₂ h₂ _ => .pure h₂.after .none
  | succ n ih =>
    have hdef := hs.consistent.definition?_eq_some_iff hs.owned hd hown ha
    rw [firstWithDefinition]
    refine Ensures.view hs fun v hv => ?_
    replace ha := hv.grows.reads ha
    replace hd : (s.withSolver v).univ.catalog.get? decl = some d := by rw [hv.grows.catalog, hd]
    replace hown : (s.withSolver v).univ.ownType? decl = some definition := by
      rw [hv.grows.ownType?, hown]
    replace hs := hv.after
    split_ifs with hbuilt
    · refine .pure hs ?_
      rw [Signature.chainFrom]
      cases S.baseOf a with
      | none =>
        rw [List.find?_cons_of_pos (hdef.1 hbuilt)]
        exact .some ha
      | some base =>
        rw [List.find?_cons_of_pos (hdef.1 hbuilt)]
        exact .some ha
    · have hno : ¬ a.isBuiltFrom decl = true := fun h => hbuilt (hdef.2 h)
      refine Ensures.bind (Ensures.lift hs (baseType_simple _).quiet (baseType_ensures hs.consistent ha)
        fun hg h => hg.rel_reads h) fun r s₁ h₁ hr => ?_
      rw [hs.signature] at hr
      rw [Signature.chainFrom]
      generalize S.baseOf a = base at hr ⊢
      cases hr with
      | none =>
        refine .pure h₁.after ?_
        rw [List.find?_cons_of_neg hno]
        exact .none
      | some hbase =>
        rw [List.find?_cons_of_neg hno]
        exact ih h₁.after (by rw [h₁.grows.catalog, hd]) (by rw [h₁.grows.ownType?, hown]) hbase

theorem resolveClosed_ensures {source target : Handle} (hs : Sound S levels s)
    (ha : s.univ.Reads source a) (hb : s.univ.Reads target b) :
    Ensures L levels s (resolveClosed source target) fun r s' => Option.Rel s'.univ.Reads r
      (if a.isOpen = false ∧ S.isAssignable a b then some a else none) := by
  unfold resolveClosed
  refine Ensures.view hs fun v hv => ?_
  rw [hs.consistent.isOpen_of_reads ha]
  replace ha := hv.grows.reads ha
  replace hb := hv.grows.reads hb
  replace hs := hv.after
  split_ifs with hopen hif hif
  · rw [hif.1] at hopen
    cases hopen
  · exact .pure hs .none
  · refine Ensures.bind (isAssignable_ensures hs ha hb) fun r s₁ h₁ hr => ?_
    rw [hr, if_pos hif.2]
    exact .pure h₁.after (.some (h₁.grows.reads ha))
  · refine Ensures.bind (isAssignable_ensures hs ha hb) fun r s₁ h₁ hr => ?_
    have hno : ¬ r = true := fun h => hif ⟨Bool.not_eq_true _ ▸ hopen, hr ▸ h⟩
    rw [if_neg hno]
    exact .pure h₁.after .none

/-- A known type with arguments that is no interface is a class or struct. -/
theorem isBaseKind_of_reads {u : Universe} {ty : Handle} {decl : DeclId} {bs : List Ty}
    (hu : u.Consistent) (h : u.Reads ty (.applied decl bs))
    (hi : ¬ u.signature.isInterface (.applied decl bs)) :
    u.signature.isBaseKind (.applied decl bs) := by
  obtain ⟨d, hd, -⟩ := hu.exists_catalog_of_reads h
  have hk : u.signature.kindOf? (.applied decl bs) = some d.kind := by
    simp [Signature.kindOf?, Ty.head?, Universe.signature, hd]
  simp only [Signature.isInterface, hk] at hi
  simp only [Signature.isBaseKind, hk]
  cases hkind : d.kind with
  | classKind => rfl
  | structKind => rfl
  | interfaceKind => exact absurd (by simp [hkind]) hi

/-- A question on two different types is answered from the declarations. -/
theorem resolve_ensures {nested : Nested m} (hn : Answers L levels nested) {source target : Handle}
    (hs : Sound S levels s) (ha : s.univ.Reads source a) (hb : s.univ.Reads target b)
    (hne : a ≠ b) :
    Ensures L levels s (resolve nested source target) fun r s' =>
      Finds S s.refusals s' (S.Follows · a b) (sizeOf b) (S.res a b) r := by
  unfold resolve
  refine Ensures.view hs fun v hv => ?_
  rw [hs.consistent.isGeneric_of_reads hb]
  replace ha := hv.grows.reads ha
  replace hb := hv.grows.reads hb
  replace hs := hv.after
  split_ifs with hgen
  · cases b with
    | plain _ => cases hgen
    | param _ _ => cases hgen
    | applied decl bs =>
      obtain ⟨d, hd, -⟩ := hs.consistent.exists_catalog_of_reads hb
      obtain ⟨definition, hown, -⟩ := hs.owned hd
      refine Ensures.view hs fun w h₁ => ?_
      rw [hs.consistent.definition?_of_reads hb, hown]
      refine Ensures.view h₁.after fun x hx => ?_
      rw [h₁.after.consistent.isInterface_of_reads (h₁.grows.reads hb), h₁.after.signature]
      have h₂ := h₁.trans hx
      replace ha := h₂.grows.reads ha
      replace hb := h₂.grows.reads hb
      replace hd : (s.withSolver x).univ.catalog.get? decl = some d := by rw [← hd, ← h₂.grows.catalog]; rfl
      replace hown : (s.withSolver x).univ.ownType? decl = some definition := by
        rw [← hown, ← h₂.grows.ownType?]; rfl
      replace hs := h₂.after
      split_ifs with hi
      · simp only [Signature.follows_iff_of_isInterface hi hne]
        rw [Signature.res, if_neg hne, if_pos hi]
        exact resolveInterface_ensures hn hs hown ha hb
      · have hk : S.isBaseKind (.applied decl bs) := by
          rw [← hs.signature] at hi ⊢
          exact isBaseKind_of_reads hs.consistent hb hi
        rw [Signature.res, if_neg hne, if_neg hi, if_pos hk]
        simp only [Signature.follows_iff_of_isBaseKind hk hne, ← List.find?_isSome]
        refine (firstWithDefinition_ensures hs hd hown ha).imp fun r s₁ _ hr => ?_
        exact .of_rel hr id id
  · rw [Bool.not_eq_true] at hgen
    rw [Signature.res_of_isGeneric_eq_false S a hgen]
    simp only [Signature.follows_iff_of_isGeneric_eq_false hgen, hne, false_or]
    refine (resolveClosed_ensures hs ha hb).imp fun r s₁ _ hr => ?_
    exact .of_rel hr (by simp) (by simp)

/-! ## Entering and leaving a pair -/

variable {pair : Pair} {n : Nat}

/-- The state in which the work on a pair begins. -/
def pushed (s : Search) (pair : Pair) (n : Nat) : Search :=
  { s with
    guard := { s.guard with
      steps := n, visiting := s.guard.visiting.insert pair, depth := s.guard.depth + 1 }
    stack := s.stack.push pair
    lowest := none }

/-- A question that is let in is answered from the declarations and then settled. -/
theorem evaluate_of_pushed (h : s.guard.enter pair = (.entered, (s.pushed pair n).guard)) :
    evaluate (levels + 1) pair s = settle pair s.stack.size s.lowest s.refusals
      (resolve (substituteBy (evaluate levels)) pair.source pair.target (s.pushed pair n)).1
      (resolve (substituteBy (evaluate levels)) pair.source pair.target (s.pushed pair n)).2 := by
  rw [evaluate_of_entered levels h]
  rfl

theorem Sound.pushed (hs : Sound S (levels + 1) s) (ha : s.univ.contains pair.source)
    (hb : s.univ.contains pair.target) : Sound S levels (s.pushed pair n) := by
  refine ⟨hs.consistent, hs.owned, hs.signature, hs.entries, fun p hp => ?_, fun p => ?_, ?_⟩
  · rcases Array.mem_push.1 hp with hp | rfl
    · exact hs.known p hp
    · exact ⟨ha, hb⟩
  · show p ∈ s.guard.visiting.insert pair ↔ p ∈ s.stack.push pair
    rw [Std.HashSet.mem_insert, Array.mem_push, hs.visiting p, beq_iff_eq, eq_comm, or_comm]
  · show s.guard.limits.depth ≤ levels + (s.guard.depth + 1)
    have := hs.room
    omega

/-- Taking a pair off the stack leads back to where the work on it began. -/
theorem leads_popped (hs : Sound S (levels + 1) s) (hmem : pair ∉ s.guard.visiting)
    (h : Leads S levels (s.pushed pair n) s') :
    Leads S (levels + 1) s (s'.popped pair s.stack.size s.lowest) := by
  have hf : s.Framed (s'.popped pair s.stack.size s.lowest) := framed_popped hmem h.framed
  have hg : s.univ.Grows s'.univ := h.grows
  refine ⟨hf, hg, h.after.consistent, h.after.owned, h.after.signature, h.after.entries,
    fun p hp => ?_, fun p => ?_, ?_⟩
  · rw [hf.stack] at hp
    exact ⟨hg.contains (hs.known p hp).1, hg.contains (hs.known p hp).2⟩
  · rw [hf.visiting, hs.visiting, hf.stack]
  · rw [hf.limits, hf.depth]
    exact hs.room

/-- What the answer to a pair leans on, apart from the pair itself, the answer around it leans on
once the pair is off the stack. An answer that is not provisional leans on the pair itself alone. -/
theorem leaned_popped {x y : Ty} (h : Leads S levels (s.pushed pair n) s') (hl : s'.leaned x y) :
    (s'.provisional s.stack.size ∧ (s'.popped pair s.stack.size s.lowest).leaned x y) ∨
      (x = s'.univ.typeAt pair.source ∧ y = s'.univ.typeAt pair.target) := by
  obtain ⟨low, hlow, place, p, hle, hp, rfl, rfl⟩ := hl
  have hstack : s'.stack = s.stack.push pair := h.framed.stack
  rw [hstack, Array.getElem?_push] at hp
  split_ifs at hp with hplace
  · cases hp
    exact Or.inr ⟨rfl, rfl⟩
  · obtain ⟨hlt, -⟩ := Array.getElem?_eq_some_iff.1 hp
    have hprov : s'.provisional s.stack.size := by
      rw [provisional, Option.mem_def.1 hlow, Option.any_some, decide_eq_true_eq]
      omega
    have hpop : (s'.popped pair s.stack.size s.lowest).stack = s.stack := by
      rw [popped, hstack, Array.pop_push]
    have hlowest : (s'.popped pair s.stack.size s.lowest).lowest = outermost s.lowest (some low) := by
      rw [popped, if_pos hprov, Option.mem_def.1 hlow]
    obtain ⟨m, hm, hmlow⟩ := exists_mem_outermost s.lowest low
    exact Or.inl ⟨hprov, m, hlowest ▸ hm, place, p, Nat.le_trans hmlow hle, by rw [hpop, hp], rfl, rfl⟩

/-! ## Letting in -/

section LetIn

variable {hooks : Hooks m} {admission : Admission} {g : Guard Pair} {answer : m (Option Handle)}
  {α : Type} {Q : α → Search → Prop} {A : Option Handle → Search → Prop}

theorem Logic.ends_pure_bind {β : Type} {r : β} {k : β → m α} (h : L.Ends s (k r) Q) :
    L.Ends s (pure r >>= k) Q :=
  L.ends_bind (L.ends_pure (Q := fun r s' => L.Ends s' (k r) Q) h) fun _ _ h => h

/-- The guard is asked. -/
theorem Logic.ends_enter {k : Bool → Admission → m α} (hs : s.solver.Exact S)
    (h : s.guard.enter pair = (admission, g))
    (hk : ∀ v, Advances S s.solver v →
      L.Ends { s.withSolver v with guard := g } (k s.guard.exceeded admission) Q) :
    L.Ends s (liftM exceeded >>= fun before => liftM (enter pair) >>= k before) Q := by
  obtain rfl : (s.guard.enter pair).1 = admission := congrArg Prod.fst h
  obtain rfl : (s.guard.enter pair).2 = g := congrArg Prod.snd h
  exact L.ends_own hs rfl fun v hv => L.ends_own hv.exact rfl fun w hw => hk w (hv.trans hw)

theorem Logic.letIn_of_refused (hs : s.solver.Exact S) (h : s.guard.enter pair = (admission, g))
    (ha : admission.isExceeded)
    (hk : ∀ v, Advances S s.solver v → L.Ends { s.withSolver v with guard := g, refusals := s.refusals + 1 }
      (hooks.refused s.guard.exceeded pair admission >>= fun _ => pure none) A) :
    L.Ends s (letInWith hooks pair answer) A := by
  rw [letInWith]
  refine L.ends_enter hs h fun v hv => ?_
  cases admission with
  | entered => cases ha
  | cycle => cases ha
  | depthExceeded | stepsExceeded => exact L.ends_own hv.exact rfl fun w hw => hk w (hv.trans hw)

theorem Logic.letIn_of_cycle (hs : s.solver.Exact S) (h : s.guard.enter pair = (.cycle, g))
    (hk : ∀ v, Advances S s.solver v → L.Ends { s.withSolver v with guard := g } (assumeWith hooks pair) A) :
    L.Ends s (letInWith hooks pair answer) A := by
  rw [letInWith]
  exact L.ends_enter hs h hk

theorem Logic.letIn_of_entered (hs : s.solver.Exact S) (h : s.guard.enter pair = (.entered, g))
    (hk : ∀ v, Advances S s.solver v → L.Ends { s.withSolver v with guard := g } answer A) :
    L.Ends s (letInWith hooks pair answer) A := by
  rw [letInWith]
  exact L.ends_enter hs h hk

end LetIn

/-! ## Questions -/

/-- Asking the guard leads on from a search, whether or not it refuses. -/
theorem Sound.counted {v : Solver} {exceeded : Bool} {refusals : Nat} (hs : Sound S levels s)
    (hv : Advances S s.solver v) (he : s.guard.exceeded → exceeded) (hr : s.refusals ≤ refusals) :
    Leads S levels s { s.withSolver v with guard := { s.guard with steps := n, exceeded }, refusals } := by
  have h := hs.later hv
  refine ⟨⟨rfl, rfl, fun _ => Iff.rfl, rfl, hv.entries, hr, he, h.framed.lowest, hv.noted⟩, hv.grows, ?_⟩
  exact ⟨h.after.consistent, h.after.owned, h.after.signature, h.after.entries, h.after.known,
    h.after.visiting, h.after.room⟩

/-- A question that a limit refuses is answered by the refusal. -/
theorem letIn_ensures_of_refused {admission : Admission} {answer : m (Option Handle)}
    (hs : Sound S levels s)
    (h : s.guard.enter pair = (admission, { s.guard with steps := n, exceeded := true }))
    (ha : admission.isExceeded) :
    Ensures L levels s (letInWith .plain pair answer) fun r s' => Answered S s.refusals s' a b r := by
  refine L.letIn_of_refused hs.exact h ha fun v hv => ?_
  set s₁ : Search := { s.withSolver v with
    guard := { s.guard with steps := n, exceeded := true }, refusals := s.refusals + 1 }
  have h₁ : Leads S levels s s₁ := hs.counted hv (fun _ => rfl) (Nat.le_succ _)
  have hnote : Ensures L levels s₁ (Hooks.plain.refused s.guard.exceeded pair admission : m Unit)
      fun _ _ => True := by
    cases s.guard.exceeded with
    | true => exact .pure h₁.after trivial
    | false =>
      exact .step ⟨noteRefusal_frames pair admission s₁, .refl h₁.after.consistent,
        h₁.after.grow (.refl h₁.after.consistent)⟩ fun _ _ => trivial
  refine h₁.ends (Ensures.bind hnote fun _ s₂ h₂ _ => .pure h₂.after (.none (Or.inl ?_)))
  exact Refused.after ⟨Nat.lt_succ_self _, rfl⟩ h₂.framed

theorem exists_idxOf?_of_mem {stack : Array Pair} (h : pair ∈ stack) :
    ∃ place, stack.idxOf? pair = some place ∧ stack[place]? = some pair := by
  cases hi : stack.idxOf? pair with
  | none => exact absurd h (Array.idxOf?_eq_none_iff.1 hi)
  | some place =>
    rw [Array.idxOf?_eq_map_finIdxOf?_val, Option.map_eq_some_iff] at hi
    obtain ⟨i, hi, rfl⟩ := hi
    refine ⟨i, rfl, ?_⟩
    rw [← (Array.finIdxOf?_eq_some_iff.1 hi).1]
    exact Array.getElem?_eq_getElem i.isLt

theorem placeWith_ensures {hooks : Hooks m} {place : Nat} (hs : Sound S levels s)
    (h : s.stack.idxOf? pair = some place) :
    Ensures L levels s (placeWith hooks pair) fun r _ => r = place := by
  rw [placeWith]
  refine Ensures.read hs rfl fun v hv => ?_
  have hplace : (placeOf? pair s).1 = some place := h
  rw [hplace]
  exact .pure hv.after rfl

/-- An answer that leans on a pair in progress may assume it. -/
theorem leanOn_ensures {place : Nat} (hs : Sound S levels s) (hplace : s.stack[place]? = some pair)
    (ha : s.univ.Reads pair.source a) (hb : s.univ.Reads pair.target b) :
    Ensures L levels s (liftM (leanOn place) : m Unit) fun _ s' => s'.leaned a b := by
  have hsound : Sound S levels (leanOn place s).2 :=
    ⟨hs.consistent, hs.owned, hs.signature, hs.entries, hs.known, hs.visiting, hs.room⟩
  refine .step ⟨leanOn_frames place s, .refl hs.consistent, hsound⟩ fun s' h => h.leaned hsound ?_
  obtain ⟨low, hlow, hle⟩ := exists_mem_outermost s.lowest place
  exact ⟨low, hlow, place, pair, hle, hplace, ha.2, hb.2⟩

/-- A question that is in progress leans on itself, and the type that it gives was assumed. -/
theorem letIn_ensures_of_cycle {answer : m (Option Handle)} (hs : Sound S levels s)
    (h : s.guard.enter pair = (.cycle, { s.guard with steps := n }))
    (hmem : pair ∈ s.guard.visiting) (ha : s.univ.Reads pair.source a)
    (hb : s.univ.Reads pair.target b) :
    Ensures L levels s (letInWith .plain pair answer) fun r s' => Answered S s.refusals s' a b r := by
  refine L.letIn_of_cycle hs.exact h fun v hv => ?_
  set s₁ : Search := { s.withSolver v with guard := { s.guard with steps := n } }
  have h₁ : Leads S levels s s₁ := hs.counted hv id (Nat.le_refl _)
  obtain ⟨place, hidx, hplace⟩ := exists_idxOf?_of_mem ((hs.visiting pair).1 hmem)
  rw [assumeWith]
  refine h₁.ends (Ensures.bind (placeWith_ensures h₁.after hidx) ?_)
  rintro _ s₂ h₂ rfl
  have h₁₂ := h₁.trans h₂
  have hplace₂ : s₂.stack[_]? = some pair := h₁₂.framed.stack ▸ hplace
  refine Ensures.bind (leanOn_ensures h₂.after hplace₂ (h₁₂.grows.reads ha) (h₁₂.grows.reads hb))
    fun _ s₃ h₃ hleaned => ?_
  refine Ensures.bind (Ensures.note h₃.after nofun) fun _ s₄ h₄ _ => .pure h₄.after ?_
  replace hleaned := h₄.leaned h₃.after hleaned
  refine .some (Signature.under_of hleaned) (((h₁₂.trans h₃).trans h₄).grows.reads ha) ?_
  exact Or.inr fun _ => Or.inr ⟨a, b, hleaned, Nat.lt_succ_self _⟩

/-- What was found out about a pair while it was in progress, once it is off the stack. -/
theorem answered_popped {r : Option Handle} (h : Leads S levels (s.pushed pair n) s')
    (ha : s'.univ.Reads pair.source a) (hb : s'.univ.Reads pair.target b)
    (hr : Finds S s.refusals s' (S.Follows · a b) (sizeOf b) (S.res a b) r) :
    Answered S s.refusals (s'.popped pair s.stack.size s.lowest) a b r := by
  set s₂ := s'.popped pair s.stack.size s.lowest with hs₂
  have hleaned : ∀ x y, s'.leaned x y → s₂.leaned x y ∨ (x = a ∧ y = b) := fun x y hl => by
    rw [← ha.2, ← hb.2]
    exact (leaned_popped h hl).imp_left And.right
  have hrefused : Refused s.refusals s' → Refused s.refusals s₂ := fun hr =>
    ⟨hr.1, (exceeded_leave s'.guard pair).trans hr.2⟩
  have hunder : r.isSome → S.Under s₂.leaned a b := fun hyes => Signature.under_of_follows_self
    ((hr.decided.holds hyes).mono fun _ _ => Signature.Under.mono hleaned)
  refine ⟨⟨hunder, fun hno => ?_⟩, fun ty hty => ?_⟩
  · exact (hr.decided.fails hno).imp hrefused fun hno hsub => hno (Signature.sub_iff_follows.1 hsub)
  · obtain ⟨t, ht, hset⟩ := hr.resolved ty hty
    refine ⟨t, ht, Or.imp hrefused (fun hset hsub => ?_) hset⟩
    have hab : S.Sub a b := (hunder (Option.isSome_of_mem hty)).sub hsub
    have hall : ∀ x y, s'.leaned x y → S.Sub x y := fun x y hxy => by
      rcases hleaned x y hxy with hxy | ⟨rfl, rfl⟩
      · exact hsub x y hxy
      · exact hab
    rcases hset hall with hres | ⟨x, y, hxy, hlt⟩
    · exact Or.inl hres
    · rcases hleaned x y hxy with hxy | ⟨rfl, rfl⟩
      · exact Or.inr ⟨x, y, hxy, Nat.lt_succ_of_lt hlt⟩
      · exact absurd hlt (Nat.lt_irrefl _)

/-- A verdict that is recorded is exact. -/
theorem decides_of_recorded {r : Option Handle} (h : Leads S levels (s.pushed pair n) s')
    (ha : s'.univ.Reads pair.source a) (hb : s'.univ.Reads pair.target b)
    (hr : Finds S s.refusals s' (S.Follows · a b) (sizeOf b) (S.res a b) r)
    (hprov : s'.provisional s.stack.size = false) (hrefusals : s'.refusals = s.refusals) :
    Option.Rel s'.univ.Reads r (S.res a b) := by
  have hleaned : ∀ x y, s'.leaned x y → x = a ∧ y = b := fun x y hl => by
    rw [← ha.2, ← hb.2]
    refine (leaned_popped h hl).resolve_left fun hp => ?_
    rw [hprov] at hp
    cases hp.1
  have hrefused : ¬ Refused s.refusals s' := fun hr => absurd hr.1 (Nat.not_lt.2 hrefusals.le)
  cases r with
  | none =>
    have hno := (hr.decided.fails rfl).resolve_left hrefused
    have hres : S.res a b = none := by
      rw [← Option.not_isSome_iff_eq_none, Signature.isSome_res_iff, Signature.sub_iff_follows]
      exact hno
    rw [hres]
    exact .none
  | some ty =>
    have hab : S.Sub a b := by
      refine Signature.sub_iff_under.2 (Signature.under_of_follows_self ?_)
      exact (hr.decided.holds rfl).mono fun _ _ =>
        Signature.Under.mono fun x y hxy => Or.inr (hleaned x y hxy)
    obtain ⟨t, ht, hset⟩ := hr.resolved ty rfl
    have hall : ∀ x y, s'.leaned x y → S.Sub x y := fun x y hxy => by
      obtain ⟨rfl, rfl⟩ := hleaned x y hxy
      exact hab
    rcases hset.resolve_left hrefused hall with hres | ⟨x, y, hxy, hlt⟩
    · rw [hres]
      exact .some ht
    · obtain ⟨rfl, rfl⟩ := hleaned x y hxy
      exact absurd hlt (Nat.lt_irrefl _)

/-- An answer that is exact. -/
theorem Answered.of_rel {r : Option Handle} (h : Option.Rel s.univ.Reads r (S.res a b)) :
    Answered S since s a b r :=
  Finds.of_rel h (fun hres => (Signature.isSome_res_iff.1 hres).under) Signature.isSome_res_iff.2

/-- A type stands for itself. -/
theorem Sound.rel_of_eq (hs : Sound S levels s) {source target : Handle} (ha : s.univ.Reads source a)
    (hb : s.univ.Reads target b) (heq : source = target) :
    Option.Rel s.univ.Reads (some source) (S.res a b) := by
  obtain rfl := (hs.consistent.eq_iff_of_reads ha hb).1 heq
  rw [Signature.res_self]
  exact .some ha

/-- A recorded verdict is exact. -/
theorem Sound.rel_of_recorded (hs : Sound S levels s) (ha : s.univ.Reads pair.source a)
    (hb : s.univ.Reads pair.target b) {verdict : Verdict}
    (hfound : s.verdicts.entries[pair]? = some verdict) :
    Option.Rel s.univ.Reads verdict.substitution? (S.res a b) := by
  obtain ⟨-, -, hrel⟩ := hs.entries hfound
  rwa [hs.signature, ha.2, hb.2] at hrel

/-- Recording an exact verdict keeps all verdicts exact. -/
theorem Sound.record {r : Option Handle} (hs : Sound S levels s) (ha : s.univ.Reads pair.source a)
    (hb : s.univ.Reads pair.target b) (hr : Option.Rel s.univ.Reads r (S.res a b)) :
    Sound S levels (record pair (.ofSubstitution r) s).2 := by
  have hdecides : s.univ.Decides pair (.ofSubstitution r) := by
    refine ⟨ha.1, hb.1, ?_⟩
    rw [Verdict.substitution?_ofSubstitution, hs.signature, ha.2, hb.2]
    exact hr
  refine ⟨hs.consistent, hs.owned, hs.signature, fun {p v} h => ?_, hs.known, hs.visiting, hs.room⟩
  rcases entries_record_cases h with h | ⟨rfl, rfl⟩
  · exact hs.entries h
  · exact hdecides

/-- A note of a verdict that is on record. -/
theorem noteVerdict_ensures {verdict : Verdict} (hs : Sound S levels s)
    (h : s.verdicts.entries[pair]? = some verdict) :
    Ensures L levels s (liftM (note (.verdict pair verdict.substitution?)) : m Unit) fun _ _ => True := by
  rw [L.lift_eq]
  refine .step ⟨⟨rfl, rfl, fun _ => Iff.rfl, rfl, id, Nat.le_refl _, id,
    fun n hn => ⟨n, hn, Nat.le_refl n⟩, fun he => ?_⟩, .refl hs.consistent,
    hs.grow (.refl hs.consistent)⟩ fun _ _ => trivial
  rcases Array.mem_push.1 he with he | he
  · exact Or.inl he
  · cases he
    rw [Verdict.ofSubstitution_substitution?]
    exact Or.inr h

/-- An exact verdict is recorded. The one that stands may be another's, which is exact as well. -/
theorem recordAnswer_ensures {r : Option Handle} (hs : Sound S levels s)
    (ha : s.univ.Reads pair.source a) (hb : s.univ.Reads pair.target b)
    (hr : Option.Rel s.univ.Reads r (S.res a b)) :
    Ensures L levels s (recordAnswer pair r : m (Option Handle)) fun r s' =>
      Option.Rel s'.univ.Reads r (S.res a b) := by
  have hstands := s.verdicts.getElem?_entries_record pair (.ofSubstitution r)
  have hrecord : Ensures L levels s (liftM (record pair (.ofSubstitution r)) : m Verdict)
      fun standing s' => s'.verdicts.entries[pair]? = some standing :=
    .step ⟨record_frames pair _ s, .refl hs.consistent, hs.record ha hb hr⟩
      fun s' h => h.framed.entries hstands
  rw [recordAnswer]
  refine Ensures.bind hrecord fun standing s₁ h₁ hentry => ?_
  refine Ensures.bind (noteVerdict_ensures h₁.after hentry) fun _ s₂ h₂ _ => .pure h₂.after ?_
  exact h₂.grows.rel_reads
    (h₁.after.rel_of_recorded (h₁.grows.reads ha) (h₁.grows.reads hb) hentry)

theorem lookup_ensures (hs : Sound S levels s) (pair : Pair) :
    Ensures L levels s (liftM (lookup pair) : m (Option Verdict)) fun r _ =>
      r = s.verdicts.entries[pair]? := by
  refine .step ⟨lookup_frames pair s, .refl hs.consistent, hs.consistent, hs.owned, hs.signature,
    fun {p v} h => ?_, hs.known, hs.visiting, hs.room⟩ fun _ _ => s.verdicts.lookup_fst pair
  change (s.verdicts.lookup pair).2.entries[p]? = some v at h
  rw [Verdicts.entries_lookup] at h
  exact hs.entries h

/-- Questions on two different types are answered. -/
def Evaluates (L : Logic S m) (levels : Nat) (evaluate : Pair → m (Option Handle)) : Prop :=
  ∀ {s : Search} {pair : Pair} {a b : Ty}, Sound S levels s → s.univ.Reads pair.source a →
    s.univ.Reads pair.target b → a ≠ b →
    Ensures L levels s (evaluate pair) fun r s' => Answered S s.refusals s' a b r

/-- Nested questions are answered at once, from recorded verdicts, or as `evaluate` does. -/
theorem substituteBy_answers {evaluate : Pair → m (Option Handle)}
    (he : Evaluates L levels evaluate) : Answers L levels (substituteBy evaluate) := by
  intro s source target a b hs ha hb
  unfold substituteBy
  split_ifs with heq
  · exact .pure hs (.of_rel (hs.rel_of_eq ha hb heq))
  · have hne : a ≠ b := fun h => heq ((hs.consistent.eq_iff_of_reads ha hb).2 h)
    refine Ensures.bind (lookup_ensures hs _) ?_
    rintro _ s₁ h₁ rfl
    cases hfound : s.verdicts.entries[(⟨source, target⟩ : Pair)]? with
    | some verdict =>
      have hrel := hs.rel_of_recorded ha hb hfound
      refine Ensures.bind (Ensures.note h₁.after nofun) fun _ s₂ h₂ _ => ?_
      exact .pure h₂.after (.of_rel ((h₁.trans h₂).grows.rel_reads hrel))
    | none =>
      exact (he h₁.after (h₁.grows.reads ha) (h₁.grows.reads hb) hne).imp fun r s₂ h₂ hr =>
        hr.before h₁.framed.refusals

/-- The work on a pair ends with its answer, and its verdict is recorded only if it is exact. -/
theorem settle_ends {r : Option Handle} (hs : Sound S (levels + 1) s) (hmem : pair ∉ s.guard.visiting)
    (h₁ : Leads S levels (s.pushed pair n) s') (ha : s'.univ.Reads pair.source a)
    (hb : s'.univ.Reads pair.target b)
    (hr : Finds S s.refusals s' (S.Follows · a b) (sizeOf b) (S.res a b) r) :
    L.Ends s' (settleWith .plain pair s.stack.size s.lowest s.refusals r) fun r t =>
      Leads S (levels + 1) s t ∧ Answered S s.refusals t a b r := by
  have h₂ := leads_popped hs hmem h₁
  rw [settleWith]
  refine L.ends_own h₁.after.exact rfl fun v hv => ?_
  have h₃ := h₂.after.later hv
  show L.Ends ((s'.popped pair s.stack.size s.lowest).withSolver v)
    (if (s'.provisional s.stack.size || s'.refusals != s.refusals) = true then _ else _) _
  split_ifs with hw
  · refine (h₂.trans h₃).ends (Ensures.bind (Ensures.note h₃.after nofun) fun _ t h₄ _ => .pure h₄.after ?_)
    exact (answered_popped h₁ ha hb hr).after h₂.after (h₃.trans h₄) ((h₃.trans h₄).under h₂.after)
  · rw [Bool.or_eq_true, not_or, Bool.not_eq_true, bne_iff_ne, not_not] at hw
    have hrel := decides_of_recorded h₁ ha hb hr hw.1 hw.2
    refine (h₂.trans h₃).ends ((recordAnswer_ensures h₃.after (h₃.grows.reads ha) (h₃.grows.reads hb)
      (h₃.grows.rel_reads hrel)).imp fun r t _ hr => .of_rel hr)

/-- A question that is let in is answered from the declarations, and then settled. -/
theorem letIn_ensures_of_entered {nested : Nested m} (hn : Answers L levels nested)
    (hs : Sound S (levels + 1) s) (h : s.guard.enter pair = (.entered, (s.pushed pair n).guard))
    (hmem : pair ∉ s.guard.visiting) (ha : s.univ.Reads pair.source a)
    (hb : s.univ.Reads pair.target b) (hne : a ≠ b) :
    Ensures L (levels + 1) s (letInWith .plain pair (answerWith .plain nested pair)) fun r s' =>
      Answered S s.refusals s' a b r := by
  refine L.letIn_of_entered hs.exact h fun v hv => ?_
  rw [answerWith]
  refine L.ends_own hv.exact rfl fun w hw => L.ends_own hw.exact rfl fun x hx => ?_
  refine L.ends_pure_bind ?_
  have h₀ := hs.later ((hv.trans hw).trans hx)
  have hpush : Sound S levels ((s.withSolver x).pushed pair n) :=
    h₀.after.pushed (h₀.grows.reads ha).1 (h₀.grows.reads hb).1
  refine L.ends_bind (resolve_ensures hn hpush (h₀.grows.reads ha) (h₀.grows.reads hb) hne)
    fun r s₁ hr => L.ends_pure_bind ?_
  obtain ⟨h₁, hr⟩ := hr
  have hg := h₀.grows.trans h₁.grows
  have hsettle := settle_ends (L := L) h₀.after hmem h₁ (hg.reads ha) (hg.reads hb) hr
  exact L.ends_imp hsettle fun r t ht => ⟨h₀.trans ht.1, ht.2⟩

/-- The search answers questions, by induction on the depth that is left. -/
theorem evaluateWith_evaluates (L : Logic S m) (levels : Nat) :
    Evaluates L levels (evaluateWith .plain levels) := by
  induction levels with
  | zero =>
    intro s pair a b hs ha hb _
    rcases enter_cases s.guard pair with ⟨_, n, hadm, h⟩ | ⟨hmem, n, h⟩ | ⟨-, hdepth, -, -⟩
    · exact letIn_ensures_of_refused hs h hadm
    · exact letIn_ensures_of_cycle hs h hmem ha hb
    · have := hs.room
      omega
  | succ levels ih =>
    intro s pair a b hs ha hb hne
    rcases enter_cases s.guard pair with ⟨_, n, hadm, h⟩ | ⟨hmem, n, h⟩ | ⟨hmem, -, n, h⟩
    · exact letIn_ensures_of_refused hs h hadm
    · exact letIn_ensures_of_cycle hs h hmem ha hb
    · exact letIn_ensures_of_entered (substituteBy_answers ih) hs h hmem ha hb hne

end Subtyping.Search
