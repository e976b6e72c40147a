import Subtyping.Proofs.Grammar

/-!
# Derivations of type expressions

The grammar of type expressions relates an expression to the texts that it may be written as, with blanks
before and after every token (`TypeExpr.Derives`). A name is followed by a mark or by nothing, so it need
not be said that names are as long as possible. The parser accepts exactly the texts that are derived, and
gives the expression that they are derived from (`TypeExpr.parse_exact`).

Both sides are compared by lexemes. A text is derived from an expression if and only if it is spaced out
of its lexemes (`TypeExpr.derives_iff`). Every text is spaced out of the lexemes that it is cut into
(`TypeExpr.exists_spaced`), and what the parser takes off them are the lexemes of what it gives
(`TypeExpr.Parser.expr_consumes`).
-/

namespace Subtyping.TypeExpr

/-! ## The grammar -/

/-- A token with blanks before and after it. -/
def Padded (token cs : List Char) : Prop :=
  ∃ before after, before.all Text.isBlank ∧ after.all Text.isBlank ∧ cs = before ++ (token ++ after)

/-- So many commas. -/
inductive Commas : Nat → List Char → Prop where
  | nil : Commas 0 []
  | cons {k : Nat} {a b : List Char} (ha : Padded [','] a) (hb : Commas k b) : Commas (k + 1) (a ++ b)

/-- Expressions with a comma between any two of them. -/
inductive Listed (inner : TypeExpr → List Char → Prop) : List TypeExpr → List Char → Prop where
  | single {e : TypeExpr} {a : List Char} (ha : inner e a) : Listed inner [e] a
  | cons {e : TypeExpr} {es : List TypeExpr} {a b c : List Char} (ha : inner e a) (hb : Padded [','] b)
      (hc : Listed inner es c) : Listed inner (e :: es) (a ++ (b ++ c))

/-- The productions of the grammar, where `inner` derives the expressions inside brackets. -/
inductive Produced (inner : TypeExpr → List Char → Prop) : TypeExpr → List Char → Prop where
  | name {n : String} {a : List Char} (hn : isName n) (ha : Padded n.toList a) :
      Produced inner (.name n) a
  | apply {n : String} {args : List TypeExpr} {a b c d : List Char} (hn : isName n)
      (ha : Padded n.toList a) (hb : Padded ['<'] b) (hc : Listed inner args c)
      (hd : Padded ['>'] d) : Produced inner (.apply n args) (a ++ (b ++ (c ++ d)))
  | slots {n : String} {k : Nat} {a b c d : List Char} (hn : isName n) (ha : Padded n.toList a)
      (hb : Padded ['<'] b) (hc : Commas k c) (hd : Padded ['>'] d) :
      Produced inner (.slots n (k + 1)) (a ++ (b ++ (c ++ d)))

/-- The texts of an expression in which expressions stand inside each other at most so many levels
deep. -/
def Derives : (levels : Nat) → TypeExpr → List Char → Prop
  | 0 => fun _ _ => False
  | levels + 1 => Produced (Derives levels)

/-- Whether an expression can be written within so many levels: its names are names, and brackets hold
some argument or slot. -/
def spellable : (levels : Nat) → TypeExpr → Bool
  | 0, _ => false
  | _ + 1, .name n => isName n
  | _ + 1, .slots n arity => isName n && arity != 0
  | levels + 1, .apply n args => isName n && (!args.isEmpty && args.all (spellable levels))

theorem fits_of_spellable {levels : Nat} {e : TypeExpr} (h : e.spellable levels) : e.fits levels := by
  induction levels generalizing e with
  | zero => cases h
  | succ levels ih =>
    cases e with
    | name n => rfl
    | slots n arity =>
      rw [spellable, Bool.and_eq_true] at h
      exact h.2
    | apply n args =>
      rw [spellable, Bool.and_eq_true, Bool.and_eq_true, List.all_eq_true] at h
      rw [fits, Bool.and_eq_true, List.all_eq_true]
      exact ⟨h.2.1, fun e he => ih (h.2.2 e he)⟩

theorem fits_mono {levels levels' : Nat} (hle : levels ≤ levels') {e : TypeExpr} (h : e.fits levels) :
    e.fits levels' := by
  induction levels generalizing e levels' with
  | zero => cases h
  | succ levels ih =>
    obtain ⟨levels', rfl⟩ : ∃ k, levels' = k + 1 := ⟨levels' - 1, by omega⟩
    cases e with
    | name n => rfl
    | slots n arity => exact h
    | apply n args =>
      rw [fits, Bool.and_eq_true, List.all_eq_true] at h ⊢
      exact ⟨h.1, fun e he => ih (Nat.le_of_succ_le_succ hle) (h.2 e he)⟩

/-! ## Spaced texts, put together and taken apart -/

variable {c : Char} {ls ls' : List Lexeme} {a b cs : List Char}

namespace Lexeme

/-- How a lexeme is written. -/
def text : Lexeme → List Char
  | .name n => n.toList
  | .mark c => [c]

/-- A lexeme that a text can have. -/
def Proper : Lexeme → Prop
  | .name n => isName n
  | .mark c => Text.isBlank c = false ∧ startsName c = false

end Lexeme

theorem continuesName_of_isBlank (h : Text.isBlank c) : continuesName c = false := by
  by_contra hname
  rw [Bool.not_eq_false] at hname
  have hrange : 46 ≤ c.toNat ∧ c.toNat ≤ 122 := by
    simp only [continuesName, Char.isAlphanum, Char.isAlpha, Char.isUpper, Char.isLower, Char.isDigit,
      Bool.or_eq_true, Bool.and_eq_true, decide_eq_true_eq, beq_iff_eq, UInt32.le_iff_toNat_le,
      ge_iff_le] at hname
    rcases hname with (((h | h) | h) | rfl) | rfl
    · exact ⟨le_trans (by decide) h.1, h.2.trans (by decide)⟩
    · exact ⟨le_trans (by decide) h.1, h.2⟩
    · exact ⟨le_trans (by decide) h.1, h.2.trans (by decide)⟩
    · decide
    · decide
  simp [Text.isBlank, Text.blankRanges] at h
  omega

theorem continuesName_head?_append (ha : ∀ c ∈ a.head?, continuesName c = false)
    (hb : ∀ c ∈ b.head?, continuesName c = false) : ∀ c ∈ (a ++ b).head?, continuesName c = false := by
  cases a with
  | nil => exact hb
  | cons d a => exact ha

theorem continuesName_head?_of_all_blank (h : a.all Text.isBlank) :
    ∀ c ∈ a.head?, continuesName c = false := by
  intro c hc
  exact continuesName_of_isBlank (List.all_eq_true.1 h c (List.mem_of_mem_head? hc))

/-- A mark with blanks around it ends a name. -/
theorem Padded.continuesName_head? (h : Padded [c] a) (hc : continuesName c = false) (b : List Char) :
    ∀ d ∈ (a ++ b).head?, continuesName d = false := by
  obtain ⟨before, after, hbefore, -, rfl⟩ := h
  rw [List.append_assoc]
  exact continuesName_head?_append (continuesName_head?_of_all_blank hbefore)
    (continuesName_of_head? hc)

namespace Spaced

theorem blanks (h : Spaced ls cs) (ha : a.all Text.isBlank) : Spaced ls (a ++ cs) := by
  induction a with
  | nil => exact h
  | cons c a ih =>
    rw [List.all_cons, Bool.and_eq_true] at ha
    exact .blank ha.1 (ih ha.2)

theorem nil_iff : Spaced [] cs ↔ cs.all Text.isBlank := by
  refine ⟨fun h => ?_, fun h => by simpa using blanks .nil h⟩
  generalize hls : ([] : List Lexeme) = ls at h
  induction h with
  | nil => rfl
  | blank hc _ ih => rw [List.all_cons, hc, ih hls, Bool.true_and]
  | name => cases hls
  | mark => cases hls

theorem proper (h : Spaced ls cs) : ∀ l ∈ ls, l.Proper := by
  induction h with
  | nil => simp
  | blank _ _ ih => exact ih
  | name hn _ _ ih => exact List.forall_mem_cons.2 ⟨hn, ih⟩
  | mark hblank hname _ ih => exact List.forall_mem_cons.2 ⟨⟨hblank, hname⟩, ih⟩

/-- Texts may be put together where no name goes on. -/
theorem append (h : Spaced ls a) (h' : Spaced ls' b) (hb : ∀ c ∈ b.head?, continuesName c = false) :
    Spaced (ls ++ ls') (a ++ b) := by
  induction h with
  | nil => exact h'
  | blank hc _ ih => exact .blank hc ih
  | name hn hmax _ ih =>
    rw [List.append_assoc]
    exact .name hn (continuesName_head?_append hmax hb) ih
  | mark hblank hname _ ih => exact .mark hblank hname ih

/-- After a mark, texts may be put together. -/
theorem mark_append (h : Spaced [.mark c] a) (h' : Spaced ls b) : Spaced (.mark c :: ls) (a ++ b) := by
  generalize hl : [Lexeme.mark c] = l at h
  induction h with
  | nil => cases hl
  | blank hc _ ih => exact .blank hc (ih hl)
  | name => cases hl
  | mark hblank hname hrest =>
    cases hl
    exact .mark hblank hname (h'.blanks (nil_iff.1 hrest))

/-- A text may be taken apart between any two lexemes. -/
theorem split (h : Spaced (ls ++ ls') cs) : ∃ a b, cs = a ++ b ∧ Spaced ls a ∧ Spaced ls' b := by
  generalize hl : ls ++ ls' = l at h
  induction h generalizing ls with
  | nil =>
    obtain ⟨rfl, rfl⟩ := List.append_eq_nil_iff.1 hl
    exact ⟨[], [], rfl, .nil, .nil⟩
  | @blank c cs l hc _ ih =>
    obtain ⟨a, b, rfl, ha, hb⟩ := ih hl
    exact ⟨c :: a, b, rfl, .blank hc ha, hb⟩
  | @name n cs l hn hmax h ih =>
    cases ls with
    | nil =>
      obtain rfl : ls' = _ := hl
      exact ⟨[], _, rfl, .nil, .name hn hmax h⟩
    | cons first ls =>
      obtain ⟨rfl, hrest⟩ := List.cons.inj hl
      obtain ⟨a, b, rfl, ha, hb⟩ := ih hrest
      refine ⟨n.toList ++ a, b, (List.append_assoc _ _ _).symm, .name hn ?_ ha, hb⟩
      cases a with
      | nil => simp
      | cons d a => exact hmax
  | @mark c cs l hblank hname h ih =>
    cases ls with
    | nil =>
      obtain rfl : ls' = _ := hl
      exact ⟨[], _, rfl, .nil, .mark hblank hname h⟩
    | cons first ls =>
      obtain ⟨rfl, hrest⟩ := List.cons.inj hl
      obtain ⟨a, b, rfl, ha, hb⟩ := ih hrest
      exact ⟨c :: a, b, rfl, .mark hblank hname ha, hb⟩

/-- A text that is spaced out of one lexeme has it with blanks around. -/
theorem padded {l : Lexeme} (h : Spaced [l] cs) : Padded l.text cs := by
  generalize hl : [l] = ls at h
  induction h with
  | nil => cases hl
  | @blank c cs ls hc _ ih =>
    obtain ⟨before, after, hbefore, hafter, rfl⟩ := ih hl
    exact ⟨c :: before, after, by rw [List.all_cons, hc, hbefore]; rfl, hafter, rfl⟩
  | @name n cs ls hn hmax h =>
    cases hl
    exact ⟨[], cs, rfl, nil_iff.1 h, rfl⟩
  | @mark c cs ls hblank hname h =>
    cases hl
    exact ⟨[], cs, rfl, nil_iff.1 h, rfl⟩

end Spaced

theorem Padded.spaced {l : Lexeme} (h : Padded l.text cs) (hl : l.Proper) : Spaced [l] cs := by
  obtain ⟨before, after, hbefore, hafter, rfl⟩ := h
  refine Spaced.blanks ?_ hbefore
  have hrest := Spaced.nil_iff.2 hafter
  cases l with
  | name n => exact .name hl (continuesName_head?_of_all_blank hafter) hrest
  | mark c => exact .mark hl.1 hl.2 hrest

/-- Every text is spaced out of some lexemes. -/
theorem exists_spaced (cs : List Char) : ∃ ls, Spaced ls cs := by
  induction hn : cs.length using Nat.strong_induction_on generalizing cs with
  | _ n ih =>
    subst hn
    cases cs with
    | nil => exact ⟨[], .nil⟩
    | cons c cs =>
      by_cases hname : startsName c
      · obtain ⟨ls, hls⟩ := ih (cs.dropWhile continuesName).length
          (Nat.lt_succ_of_le (List.dropWhile_sublist _).length_le) _ rfl
        have hcs : c :: cs = (String.ofList (c :: cs.takeWhile continuesName)).toList ++
            cs.dropWhile continuesName := by
          rw [String.toList_ofList, List.cons_append, List.takeWhile_append_dropWhile]
        rw [hcs]
        refine ⟨_, .name ?_ ?_ hls⟩
        · simp [isName, hname]
        · intro d hd
          have hnot := List.head?_dropWhile_not continuesName cs
          rw [Option.mem_def.1 hd] at hnot
          exact hnot
      · obtain ⟨ls, hls⟩ := ih cs.length (Nat.lt_succ_self _) cs rfl
        cases hblank : Text.isBlank c with
        | true => exact ⟨ls, .blank hblank hls⟩
        | false => exact ⟨_, .mark hblank (Bool.eq_false_iff.2 hname) hls⟩

/-! ## Derived texts -/

section Derived

variable {inner : TypeExpr → List Char → Prop} {e : TypeExpr} {es : List TypeExpr} {k levels : Nat}

theorem Padded.spaced_mark (h : Padded [c] a) (hblank : Text.isBlank c = false)
    (hname : startsName c = false) : Spaced [.mark c] a :=
  Padded.spaced (l := .mark c) h ⟨hblank, hname⟩

theorem Commas.spaced (h : Commas k cs) : Spaced (List.replicate k (.mark ',')) cs := by
  induction h with
  | nil => exact .nil
  | cons ha _ ih => exact (ha.spaced_mark (by decide) (by decide)).mark_append ih

theorem Listed.spaced (h : Listed inner es cs)
    (hinner : ∀ e ∈ es, ∀ cs, inner e cs → Spaced e.lexemes cs) :
    ∃ first rest, es = first :: rest ∧ Spaced (first.lexemes ++ lexemesAfter rest) cs := by
  induction h with
  | @single e a ha =>
    refine ⟨e, [], rfl, ?_⟩
    rw [lexemesAfter, List.append_nil]
    exact hinner e List.mem_cons_self a ha
  | @cons e es a b c ha hb _ ih =>
    obtain ⟨hfirst, hothers⟩ := List.forall_mem_cons.1 hinner
    obtain ⟨first, rest, rfl, hrest⟩ := ih hothers
    refine ⟨e, first :: rest, rfl, ?_⟩
    have hcomma := (hb.spaced_mark (by decide) (by decide)).mark_append hrest
    exact (hfirst a ha).append hcomma (hb.continuesName_head? (by decide) c)

theorem spaced_bracketed {n : String} {d : List Char} (hn : isName n) (ha : Padded n.toList a)
    (hb : Padded ['<'] b) (hls : Spaced ls cs) (hd : Padded ['>'] d) :
    Spaced (.name n :: .mark '<' :: (ls ++ [.mark '>'])) (a ++ (b ++ (cs ++ d))) := by
  have hend : ∀ c ∈ d.head?, continuesName c = false := by
    simpa using hd.continuesName_head? (by decide) []
  have hclose := hls.append (hd.spaced_mark (by decide) (by decide)) hend
  have hopen := (hb.spaced_mark (by decide) (by decide)).mark_append hclose
  exact (Padded.spaced (l := .name n) ha hn).append hopen (hb.continuesName_head? (by decide) _)

theorem Produced.spaced (h : Produced inner e cs) (hinner : ∀ e cs, inner e cs → Spaced e.lexemes cs) :
    Spaced e.lexemes cs := by
  cases h with
  | @name n a hn ha => exact Padded.spaced (l := .name n) ha hn
  | apply hn ha hb hc hd =>
    obtain ⟨first, rest, rfl, hargs⟩ := hc.spaced fun e _ => hinner e
    rw [lexemes, ← List.append_assoc]
    exact spaced_bracketed hn ha hb hargs hd
  | slots hn ha hb hc hd => exact spaced_bracketed hn ha hb hc.spaced hd

theorem Derives.spaced (h : Derives levels e cs) : Spaced e.lexemes cs := by
  induction levels generalizing e cs with
  | zero => exact h.elim
  | succ levels ih => exact Produced.spaced h fun e cs => ih

theorem Listed.forall_mem {P : TypeExpr → Prop} (h : Listed inner es cs)
    (hinner : ∀ e cs, inner e cs → P e) : es ≠ [] ∧ ∀ e ∈ es, P e := by
  induction h with
  | single ha => exact ⟨List.cons_ne_nil _ _, List.forall_mem_singleton.2 (hinner _ _ ha)⟩
  | cons ha _ _ ih => exact ⟨List.cons_ne_nil _ _, List.forall_mem_cons.2 ⟨hinner _ _ ha, ih.2⟩⟩

theorem Derives.spellable (h : Derives levels e cs) : e.spellable levels := by
  induction levels generalizing e cs with
  | zero => exact h.elim
  | succ levels ih =>
    cases h with
    | name hn _ => exact hn
    | slots hn _ _ _ _ => rw [TypeExpr.spellable, hn]; rfl
    | apply hn _ _ hargs _ =>
      obtain ⟨hne, hall⟩ := hargs.forall_mem fun e cs => ih
      rw [TypeExpr.spellable, hn, Bool.true_and, Bool.and_eq_true, List.all_eq_true]
      exact ⟨by simpa using hne, hall⟩

/-! ## Texts that are derived -/

theorem Spaced.uncons {l : Lexeme} (h : Spaced (l :: ls) cs) :
    ∃ a b, cs = a ++ b ∧ Padded l.text a ∧ Spaced ls b := by
  have hsplit : Spaced ([l] ++ ls) cs := h
  obtain ⟨a, b, rfl, ha, hb⟩ := hsplit.split
  exact ⟨a, b, rfl, ha.padded, hb⟩

theorem Spaced.commas (h : Spaced (List.replicate k (.mark ',') ++ ls) cs) :
    ∃ a b, cs = a ++ b ∧ Commas k a ∧ Spaced ls b := by
  induction k generalizing cs with
  | zero => exact ⟨[], cs, rfl, .nil, h⟩
  | succ k ih =>
    obtain ⟨a, r, rfl, ha, hr⟩ := h.uncons
    obtain ⟨b, r, rfl, hb, hls⟩ := ih hr
    exact ⟨a ++ b, r, (List.append_assoc _ _ _).symm, .cons ha hb, hls⟩

theorem Spaced.listed (h : Spaced (e.lexemes ++ (lexemesAfter es ++ ls)) cs)
    (hinner : ∀ e' ∈ e :: es, ∀ cs, Spaced e'.lexemes cs → inner e' cs) :
    ∃ a b, cs = a ++ b ∧ Listed inner (e :: es) a ∧ Spaced ls b := by
  induction es generalizing e cs with
  | nil =>
    obtain ⟨a, b, rfl, ha, hb⟩ := h.split
    exact ⟨a, b, rfl, .single (hinner e List.mem_cons_self a ha), hb⟩
  | cons e' es ih =>
    obtain ⟨hfirst, hothers⟩ := List.forall_mem_cons.1 hinner
    rw [lexemesAfter, List.cons_append, List.append_assoc] at h
    obtain ⟨a, r, rfl, ha, hr⟩ := h.split
    obtain ⟨b, r, rfl, hb, hr⟩ := hr.uncons
    obtain ⟨c, r, rfl, hc, hls⟩ := ih hr hothers
    refine ⟨a ++ (b ++ c), r, ?_, .cons (hfirst a ha) hb hc, hls⟩
    simp only [List.append_assoc]

theorem derives_of_spaced (he : e.spellable levels) (h : Spaced e.lexemes cs) : Derives levels e cs := by
  induction levels generalizing e cs with
  | zero => cases he
  | succ levels ih =>
    cases e with
    | name n => exact .name he h.padded
    | slots n arity =>
      rw [TypeExpr.spellable, Bool.and_eq_true] at he
      obtain ⟨k, rfl⟩ : ∃ k, arity = k + 1 := Nat.exists_eq_succ_of_ne_zero (bne_iff_ne.1 he.2)
      rw [lexemes, Nat.add_sub_cancel] at h
      obtain ⟨a, r, rfl, ha, hr⟩ := h.uncons
      obtain ⟨b, r, rfl, hb, hr⟩ := hr.uncons
      obtain ⟨c, d, rfl, hc, hd⟩ := hr.commas
      exact .slots he.1 ha hb hc hd.padded
    | apply n args =>
      rw [TypeExpr.spellable, Bool.and_eq_true, Bool.and_eq_true, List.all_eq_true] at he
      obtain ⟨hn, hne, hargs⟩ := he
      cases args with
      | nil => cases hne
      | cons arg args =>
        rw [lexemes] at h
        obtain ⟨a, r, rfl, ha, hr⟩ := h.uncons
        obtain ⟨b, r, rfl, hb, hr⟩ := hr.uncons
        obtain ⟨c, d, rfl, hc, hd⟩ := hr.listed fun e he cs => ih (hargs e he)
        exact .apply hn ha hb hc hd.padded

end Derived

/-! ## What the parser takes off -/

namespace Parser

variable {α β : Type}

/-- Where the parser succeeds, on tokens that a text can have, the lexemes that it takes off go with what it
gives. -/
def Consumes (x : Parser α) (Q : α → List Lexeme → Prop) : Prop :=
  ∀ s a s', (∀ t ∈ s.rest, t.lexeme.Proper) → x.run s = (.ok a, s') →
    ∃ used, s.rest = used ++ s'.rest ∧ Q a (used.map Token.lexeme)

theorem run_bind_of_error {x : Parser α} {f : α → Parser β} {s s' : Cursor} {error : ParseError}
    (h : x.run s = (.error error, s')) : (x >>= f).run s = (.error error, s') := by
  have hbind : ∀ {γ δ : Type} (y : StateM Cursor γ) (k : γ → StateM Cursor δ),
      (y >>= k) s = k (y s).1 (y s).2 := fun _ _ => rfl
  rw [ExceptT.run_bind, hbind, h]
  rfl

namespace Consumes

variable {Q : α → List Lexeme → Prop} {R : β → List Lexeme → Prop}

theorem pure {a : α} (h : Q a []) : Consumes (pure a) Q := by
  rintro s _ _ _ ⟨⟩
  exact ⟨[], rfl, h⟩

theorem throw (error : ParseError) : Consumes (throw error) Q := by
  rintro s a s' _ ⟨⟩

theorem bind {x : Parser α} {f : α → Parser β} (hx : Consumes x Q)
    (hf : ∀ a ls, Q a ls → Consumes (f a) fun b ls' => R b (ls ++ ls')) : Consumes (x >>= f) R := by
  intro s b s'' hs hrun
  rcases hfirst : x.run s with ⟨error | a, s'⟩
  · rw [run_bind_of_error hfirst] at hrun
    cases hrun
  · rw [run_bind_of_ok hfirst] at hrun
    obtain ⟨used, hrest, hq⟩ := hx s a s' hs hfirst
    rw [hrest] at hs
    obtain ⟨used', hrest', hr⟩ :=
      hf a _ hq s' b s'' (fun t ht => hs t (List.mem_append_right _ ht)) hrun
    refine ⟨used ++ used', by rw [hrest, hrest', List.append_assoc], ?_⟩
    rwa [List.map_append]

/-- A parser may look at what is left. -/
theorem get {f : Cursor → Parser β} (h : ∀ s, Consumes (f s) R) : Consumes (get >>= f) R :=
  fun s => h s s

theorem imp {Q' : α → List Lexeme → Prop} {x : Parser α} (hx : Consumes x Q)
    (h : ∀ a ls, Q a ls → Q' a ls) : Consumes x Q' := by
  intro s a s' hs hrun
  obtain ⟨used, hrest, hq⟩ := hx s a s' hs hrun
  exact ⟨used, hrest, h _ _ hq⟩

end Consumes

theorem typeName_consumes : Consumes typeName fun n ls => isName n ∧ ls = [.name n] := by
  rintro ⟨rest, g⟩ n s' hs hrun
  rcases rest with _ | ⟨⟨offset, first, others⟩ | ⟨offset, c⟩, rest⟩
  · cases hrun
  · cases hrun
    exact ⟨[.name offset first others], rfl, hs _ List.mem_cons_self, rfl⟩
  · cases hrun

theorem run_peekMark (s : Cursor) :
    peekMark.run s = (.ok (Lexeme.front? (s.rest.map Token.lexeme)), s) := by
  rcases s with ⟨_ | ⟨_ | _, _⟩, _⟩ <;> rfl

theorem peekMark_consumes : Consumes peekMark fun _ ls => ls = [] := by
  rintro s front s' - hrun
  rw [run_peekMark] at hrun
  cases hrun
  exact ⟨[], rfl, rfl⟩

theorem accept_consumes (c : Char) : Consumes (accept c) fun taken ls =>
    ls = if taken then [.mark c] else [] := by
  rintro ⟨rest, g⟩ taken s' - hrun
  rw [accept, run_bind_of_ok (run_peekMark _)] at hrun
  by_cases hfront : Lexeme.front? (rest.map Token.lexeme) = some c
  · rw [if_pos hfront] at hrun
    cases hrun
    rcases rest with _ | ⟨_ | ⟨offset, c'⟩, rest⟩ <;> cases hfront
    exact ⟨[.mark offset c], rfl, rfl⟩
  · rw [if_neg hfront] at hrun
    cases hrun
    exact ⟨[], rfl, rfl⟩

theorem expect_consumes {c : Char} (hc : startsName c = false) :
    Consumes (expect c) fun _ ls => ls = [.mark c] := by
  rintro ⟨rest, g⟩ _ s' hs hrun
  cases rest with
  | nil => cases hrun
  | cons t rest =>
    have hexpect : (expect c).run ⟨t :: rest, g⟩ =
        if t.char = c then (.ok (), ⟨rest, g⟩) else (.error (.mismatch c t.char), ⟨t :: rest, g⟩) := by
      show (if t.char = c then _ else _ : Parser Unit).run _ = _
      split_ifs <;> rfl
    rw [hexpect] at hrun
    split_ifs at hrun with hchar <;> cases hrun
    refine ⟨[t], rfl, ?_⟩
    cases t with
    | mark offset c' => rw [← hchar]; rfl
    | name offset first others =>
      have hname : isName (String.ofList (first :: others)) := hs _ List.mem_cons_self
      simp only [isName, String.toList_ofList, Bool.and_eq_true] at hname
      have hfirst : startsName c = true := hchar ▸ hname.1
      rw [hc] at hfirst
      cases hfirst

theorem commas_consumes (bound : Nat) :
    Consumes (commas bound) fun k ls => ls = List.replicate k (.mark ',') := by
  induction bound with
  | zero => exact .pure rfl
  | succ bound ih =>
    refine .bind (accept_consumes ',') fun taken ls hls => ?_
    subst hls
    cases taken with
    | false => exact .pure rfl
    | true =>
      refine .bind ih fun k ls hls => .pure ?_
      rw [hls, List.append_nil]
      rfl

variable {P : TypeExpr → Prop}

theorem others_consumes {item : Parser TypeExpr} (hitem : Consumes item fun e ls => P e ∧ ls = e.lexemes)
    (bound : Nat) :
    Consumes (others item bound) fun es ls => (∀ e ∈ es, P e) ∧ ls = lexemesAfter es := by
  induction bound with
  | zero => exact .pure ⟨by simp, rfl⟩
  | succ bound ih =>
    refine .bind (accept_consumes ',') fun taken ls hls => ?_
    subst hls
    cases taken with
    | false => exact .pure ⟨by simp, rfl⟩
    | true =>
      refine .bind hitem fun e ls he => .bind ih fun es ls' hes => .pure ?_
      obtain ⟨he, rfl⟩ := he
      obtain ⟨hes, rfl⟩ := hes
      refine ⟨List.forall_mem_cons.2 ⟨he, hes⟩, ?_⟩
      rw [lexemesAfter, List.append_nil]
      rfl

variable {levels : Nat} {n : String}

theorem slots_consumes (hn : isName n) (bound : Nat) :
    Consumes (do
      let separators ← commas bound
      expect '>'
      return .slots n (separators + 1) : Parser TypeExpr)
      fun e ls => e.spellable (levels + 1) ∧ e.lexemes = .name n :: .mark '<' :: ls := by
  refine .bind (commas_consumes bound) fun k ls hls => ?_
  refine .bind (expect_consumes (by decide)) fun _ ls' hls' => .pure ⟨?_, ?_⟩
  · rw [spellable, hn]
    rfl
  · rw [hls, hls', List.append_nil]
    rfl

theorem args_consumes (hn : isName n) {inner : Parser TypeExpr}
    (hinner : Consumes inner fun e ls => e.spellable levels ∧ ls = e.lexemes) (bound : Nat) :
    Consumes (do
      let first ← inner
      let args ← others inner bound
      expect '>'
      return .apply n (first :: args) : Parser TypeExpr)
      fun e ls => e.spellable (levels + 1) ∧ e.lexemes = .name n :: .mark '<' :: ls := by
  refine .bind hinner fun arg ls harg => .bind (others_consumes hinner bound) fun args ls' hargs => ?_
  refine .bind (expect_consumes (by decide)) fun _ ls'' hls => .pure ⟨?_, ?_⟩
  · rw [spellable, hn, Bool.true_and, Bool.and_eq_true, List.all_eq_true]
    exact ⟨rfl, List.forall_mem_cons.2 ⟨harg.1, hargs.1⟩⟩
  · rw [lexemes, harg.2, hargs.2, hls, List.append_nil]

/-- Between brackets the parser takes off either slots or arguments. -/
theorem argumentsOf_consumes (hn : isName n) {inner : Parser TypeExpr}
    (hinner : Consumes inner fun e ls => e.spellable levels ∧ ls = e.lexemes) :
    Consumes (argumentsOf n inner) fun e ls =>
      e.spellable (levels + 1) ∧ e.lexemes = .name n :: .mark '<' :: ls := by
  refine .get fun s => .bind peekMark_consumes fun front ls hls => ?_
  subst hls
  split
  · exact slots_consumes hn _
  · exact slots_consumes hn _
  · exact args_consumes hn hinner _

theorem exprWith_consumes {inner : Parser TypeExpr}
    (hinner : Consumes inner fun e ls => e.spellable levels ∧ ls = e.lexemes) :
    Consumes (exprWith inner) fun e ls => e.spellable (levels + 1) ∧ ls = e.lexemes := by
  refine .bind typeName_consumes fun n ls hname => ?_
  obtain ⟨hn, rfl⟩ := hname
  refine .bind (accept_consumes '<') fun taken ls hls => ?_
  subst hls
  cases taken with
  | false => exact .pure ⟨hn, rfl⟩
  | true =>
    refine (argumentsOf_consumes hn hinner).imp fun e ls h => ⟨h.1, ?_⟩
    rw [h.2]
    rfl

theorem enter_consumes : Consumes enter fun _ ls => ls = [] := by
  rintro s granted s' - hrun
  cases hrun
  exact ⟨[], rfl, rfl⟩

/-- Going deeper takes nothing off. -/
theorem deeper_consumes {x : Parser α} {Q : α → List Lexeme → Prop} (h : Consumes x Q) :
    Consumes (do
      unless ← enter do
        throw .tooDeep
      deeper x) Q := by
  have hdeeper : Consumes (deeper x) Q := by
    intro s a s' hs hrun
    rw [run_deeper] at hrun
    obtain ⟨ha, rfl⟩ := Prod.mk.inj hrun
    exact h s a (x.run s).2 hs (Prod.ext ha rfl)
  refine .bind enter_consumes fun granted ls hls => ?_
  subst hls
  cases granted with
  | false => exact .throw _
  | true => exact hdeeper

/-- What the parser takes off are the lexemes of what it gives. -/
theorem expr_consumes (levels : Nat) :
    Consumes (expr levels) fun e ls => e.spellable levels ∧ ls = e.lexemes := by
  induction levels with
  | zero => exact deeper_consumes (.throw _)
  | succ levels ih => exact deeper_consumes (exprWith_consumes ih)

end Parser

/-- A text that is read as an expression is spaced out of its lexemes. -/
theorem spaced_of_parse {s : String} {e : TypeExpr} (h : parse s = .ok e) :
    e.spellable maxLevel ∧ Spaced e.lexemes s.toList := by
  obtain ⟨ls, hls⟩ := exists_spaced s.toList
  have htokens : (Token.ofText s).map Token.lexeme = ls := Token.map_lexeme_scan hls 0
  have hproper : ∀ t ∈ Token.ofText s, t.lexeme.Proper :=
    fun t ht => hls.proper _ (htokens ▸ List.mem_map_of_mem ht)
  rw [parse, Parser.whole] at h
  rcases hrun : (Parser.expr maxLevel).run ⟨Token.ofText s, .new maxLevel⟩ with ⟨error | e', s'⟩
  · rw [Parser.run_bind_of_error hrun] at h
    cases h
  · rw [Parser.run_bind_of_ok hrun] at h
    obtain ⟨used, hrest, hspellable, hused⟩ := Parser.expr_consumes maxLevel _ e' s' hproper hrun
    rcases s' with ⟨_ | ⟨t, rest⟩, g⟩
    · cases h
      rw [List.append_nil] at hrest
      obtain rfl : Token.ofText s = used := hrest
      exact ⟨hspellable, hused ▸ htokens ▸ hls⟩
    · cases h

theorem derives_iff {levels : Nat} {e : TypeExpr} {cs : List Char} :
    Derives levels e cs ↔ e.spellable levels ∧ Spaced e.lexemes cs :=
  ⟨fun h => ⟨h.spellable, h.spaced⟩, fun h => derives_of_spaced h.1 h.2⟩

theorem parse_eq_ok_iff {s : String} {e : TypeExpr} : parse s = .ok e ↔ Derives maxLevel e s.toList := by
  rw [derives_iff]
  exact ⟨spaced_of_parse, fun h => parse_of_spaced (fits_of_spellable h.1) h.2⟩

/-- A text is derived from one expression. -/
theorem Derives.unique {levels levels' : Nat} {e e' : TypeExpr} {cs : List Char} (h : Derives levels e cs)
    (h' : Derives levels' e' cs) : e = e' := by
  let room := max levels levels'
  have hfits : e.fits room := fits_mono (le_max_left _ _) (fits_of_spellable h.spellable)
  have hfits' : e'.fits room := fits_mono (le_max_right _ _) (fits_of_spellable h'.spellable)
  have hnil : Lexeme.front? [] ≠ some '<' := by rintro ⟨⟩
  have hscan := Token.map_lexeme_scan h.spaced 0
  have hscan' := Token.map_lexeme_scan h'.spaced 0
  rw [← List.append_nil (lexemes _)] at hscan hscan'
  have hroom : (DepthGauge.new room).depth + room ≤ (DepthGauge.new room).limit := (Nat.zero_add _).le
  -- The same run takes both off.
  obtain ⟨_, -, hrun⟩ := Parser.expr_takes hfits [] hnil _ (.new room) hscan hroom
  obtain ⟨_, -, hrun'⟩ := Parser.expr_takes hfits' [] hnil _ (.new room) hscan' hroom
  rw [hrun] at hrun'
  exact Except.ok.inj (Prod.mk.inj hrun').1

/-! ## Writing expressions -/

/-- The text of lexemes with given blanks before each of them and at the end. -/
def spread : (pads : Nat → List Char) → List Lexeme → List Char
  | pads, [] => pads 0
  | pads, l :: ls => pads 0 ++ (l.text ++ spread (fun i => pads (i + 1)) ls)

/-- Lexemes that may be written with any blanks between them. -/
def Spreads (ls : List Lexeme) : Prop :=
  ∀ pads : Nat → List Char, (∀ i, (pads i).all Text.isBlank) → Spaced ls (spread pads ls)

/-- Lexemes that no name goes on with. -/
def Breaks : List Lexeme → Prop
  | [] => True
  | .name _ :: _ => False
  | .mark c :: _ => continuesName c = false

section Spreading

variable {ls : List Lexeme} {n : String} {c : Char} {pads : Nat → List Char}

theorem Breaks.continuesName_head? (h : Breaks ls) (hpads : ∀ i, (pads i).all Text.isBlank) :
    ∀ c ∈ (spread pads ls).head?, continuesName c = false := by
  have hblank := continuesName_head?_of_all_blank (hpads 0)
  rcases ls with _ | ⟨_ | c, ls⟩
  · exact hblank
  · exact h.elim
  · exact continuesName_head?_append hblank (continuesName_of_head? h)

theorem spreads_nil : Spreads [] :=
  fun _ hpads => Spaced.nil_iff.2 (hpads 0)

theorem Spreads.name (h : Spreads ls) (hls : Breaks ls) (hn : isName n) : Spreads (.name n :: ls) := by
  intro pads hpads
  have hrest : ∀ i, (pads (i + 1)).all Text.isBlank := fun i => hpads (i + 1)
  exact Spaced.blanks (.name hn (hls.continuesName_head? hrest) (h _ hrest)) (hpads 0)

theorem Spreads.mark (h : Spreads ls) (hblank : Text.isBlank c = false) (hname : startsName c = false) :
    Spreads (.mark c :: ls) := by
  intro pads hpads
  exact Spaced.blanks (.mark hblank hname (h _ fun i => hpads (i + 1))) (hpads 0)

theorem Spreads.commas (h : Spreads ls) (k : Nat) : Spreads (List.replicate k (.mark ',') ++ ls) := by
  induction k with
  | zero => exact h
  | succ k ih => exact ih.mark (by decide) (by decide)

theorem breaks_lexemesAfter (h : Breaks ls) (es : List TypeExpr) : Breaks (lexemesAfter es ++ ls) := by
  cases es with
  | nil => exact h
  | cons e es =>
    rw [lexemesAfter]
    show continuesName ',' = false
    decide

/-- Expressions may be written so if each of them may. -/
theorem spreads_lexemesAfter {es : List TypeExpr} (h : Spreads ls) (hls : Breaks ls)
    (hes : ∀ e ∈ es, ∀ ls, Spreads ls → Breaks ls → Spreads (e.lexemes ++ ls)) :
    Spreads (lexemesAfter es ++ ls) := by
  induction es with
  | nil => exact h
  | cons e es ih =>
    obtain ⟨he, hes⟩ := List.forall_mem_cons.1 hes
    rw [lexemesAfter, List.cons_append, List.append_assoc]
    exact (he _ (ih hes) (breaks_lexemesAfter hls es)).mark (by decide) (by decide)

theorem spreads_bracketed (hn : isName n) (h : Spreads ls) : Spreads (.name n :: .mark '<' :: ls) :=
  (h.mark (by decide) (by decide)).name (show continuesName '<' = false by decide) hn

theorem spreads_lexemes {levels : Nat} {e : TypeExpr} (he : e.spellable levels) (h : Spreads ls)
    (hls : Breaks ls) : Spreads (e.lexemes ++ ls) := by
  induction levels generalizing e ls with
  | zero => cases he
  | succ levels ih =>
    have hclose : Spreads (.mark '>' :: ls) := h.mark (by decide) (by decide)
    have hbreaks : Breaks (.mark '>' :: ls) := show continuesName '>' = false by decide
    cases e with
    | name n => exact h.name hls he
    | slots n arity =>
      rw [spellable, Bool.and_eq_true] at he
      rw [lexemes, List.cons_append, List.cons_append, List.append_assoc]
      exact spreads_bracketed he.1 (hclose.commas _)
    | apply n args =>
      rw [spellable, Bool.and_eq_true, Bool.and_eq_true, List.all_eq_true] at he
      obtain ⟨hn, hne, hargs⟩ := he
      cases args with
      | nil => cases hne
      | cons arg args =>
        obtain ⟨harg, hargs⟩ := List.forall_mem_cons.1 hargs
        rw [lexemes, List.cons_append, List.cons_append, List.append_assoc, List.append_assoc]
        refine spreads_bracketed hn (ih harg ?_ (breaks_lexemesAfter hbreaks args))
        exact spreads_lexemesAfter hclose hbreaks fun e he ls => ih (hargs e he)

end Spreading

/-- However an expression is written, it is read back. -/
theorem parse_spread {e : TypeExpr} (he : e.spellable maxLevel) {pads : Nat → List Char}
    (hpads : ∀ i, (pads i).all Text.isBlank) : parse (String.ofList (spread pads e.lexemes)) = .ok e := by
  have hspreads : Spreads (e.lexemes ++ []) := spreads_lexemes he spreads_nil trivial
  rw [List.append_nil] at hspreads
  refine parse_of_spaced (fits_of_spellable he) ?_
  rw [String.toList_ofList]
  exact hspreads pads hpads

/-- A text is read as an expression if and only if it is derived from it with at most 256 levels. The
grammar is that of lexemes with blanks between them and names as long as possible. It is unambiguous, and
an expression that is written with any blanks is read back. -/
theorem parse_exact :
    (∀ s e, parse s = .ok e ↔ Derives 256 e s.toList) ∧
      (∀ levels e cs, Derives levels e cs ↔ e.spellable levels ∧ Spaced e.lexemes cs) ∧
      (∀ levels levels' e e' cs, Derives levels e cs → Derives levels' e' cs → e = e') ∧
      ∀ e pads, e.spellable 256 → (∀ i, (pads i).all Text.isBlank) →
        parse (String.ofList (spread pads e.lexemes)) = .ok e :=
  ⟨fun _ _ => parse_eq_ok_iff, fun _ _ _ => derives_iff, fun _ _ _ _ _ => Derives.unique,
    fun _ _ he hpads => parse_spread he hpads⟩

/-- Blanks may stand anywhere but inside a name. -/
theorem parse_exact_nested :
    let e := TypeExpr.apply "Map" [.slots "Pair" 2, .apply "List" [.name "a.b"]]
    let text := " Map<Pair < ,>\t, List<a.b >>"
    parse text = .ok e ∧ Derives 256 e text.toList ∧ (∀ e', Derives 3 e' text.toList → e' = e) ∧
      e.spellable 256 ∧ parse (String.ofList (spread (fun i => List.replicate i ' ') e.lexemes)) = .ok e := by
  intro e text
  obtain ⟨hparse, -, hunique, hspread⟩ := parse_exact
  have hread : parse " Map<Pair < ,>\t, List<a.b >>" =
      .ok (.apply "Map" [.slots "Pair" 2, .apply "List" [.name "a.b"]]) := by cbv
  have hderives : Derives 256 e text.toList := (hparse text e).1 hread
  have he : e.spellable 256 := by rfl
  refine ⟨hread, hderives, fun e' h => hunique 3 256 e' e _ h hderives, he, hspread e _ he fun i => ?_⟩
  exact List.all_eq_true.2 fun c hc => by rw [List.eq_of_mem_replicate hc]; rfl

end Subtyping.TypeExpr
