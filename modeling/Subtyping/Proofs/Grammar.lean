import Mathlib
import Subtyping.TypeExpr.Parser

/-!
# The grammar of type expressions

An expression is written as a list of `Lexeme`s (`TypeExpr.lexemes`). A text is `Spaced` out of lexemes
if it has them one after the other, names being as long as possible, with blanks anywhere between them.
Reading a text that is spaced out of the lexemes of an expression gives the expression back, as long as
it is not nested too deeply (`TypeExpr.parse_of_spaced`).
-/

namespace Subtyping.TypeExpr

/-- Whether a text is a name. -/
def isName (s : String) : Bool :=
  match s.toList with
  | [] => false
  | c :: cs => startsName c && cs.all continuesName

/-! ## Lexemes -/

/-- A token without its place. -/
inductive Lexeme where
  | name (name : String)
  | mark (char : Char)
deriving DecidableEq, Repr

/-- The character at the front of a list of lexemes. -/
def Lexeme.front? : List Lexeme → Option Char
  | .mark c :: _ => some c
  | _ => none

def Token.lexeme : Token → Lexeme
  | .name _ first rest => .name (String.ofList (first :: rest))
  | .mark _ char => .mark char

mutual

/-- How an expression is written. -/
def lexemes : TypeExpr → List Lexeme
  | .name n => [.name n]
  | .slots n arity => .name n :: .mark '<' :: (List.replicate (arity - 1) (.mark ',') ++ [.mark '>'])
  | .apply n [] => [.name n, .mark '<', .mark '>']
  | .apply n (arg :: args) => .name n :: .mark '<' :: (lexemes arg ++ (lexemesAfter args ++ [.mark '>']))

/-- How further expressions are written, each after a comma. -/
def lexemesAfter : List TypeExpr → List Lexeme
  | [] => []
  | e :: es => .mark ',' :: (lexemes e ++ lexemesAfter es)

end

/-- Whether expressions stand inside each other at most so many levels deep. Brackets hold some argument
or slot. -/
def fits : (levels : Nat) → TypeExpr → Bool
  | 0, _ => false
  | _ + 1, .name _ => true
  | _ + 1, .slots _ arity => arity != 0
  | levels + 1, .apply _ args => !args.isEmpty && args.all (fits levels)

theorem length_le_length_lexemesAfter (es : List TypeExpr) : es.length ≤ (lexemesAfter es).length := by
  induction es with
  | nil => exact Nat.le_refl _
  | cons e es ih =>
    rw [lexemesAfter, List.length_cons, List.length_cons, List.length_append]
    omega

theorem exists_lexemes_eq (e : TypeExpr) : ∃ n ls, e.lexemes = .name n :: ls := by
  cases e with
  | name n => exact ⟨n, _, rfl⟩
  | slots n arity => exact ⟨n, _, rfl⟩
  | apply n args => cases args <;> exact ⟨n, _, rfl⟩

/-! ## Texts -/

/-- A text that has lexemes one after the other, names being as long as possible, with blanks anywhere
between them. -/
inductive Spaced : List Lexeme → List Char → Prop where
  | nil : Spaced [] []
  | blank {c : Char} {cs : List Char} {ls : List Lexeme} (hc : Text.isBlank c) (h : Spaced ls cs) :
      Spaced ls (c :: cs)
  | name {n : String} {cs : List Char} {ls : List Lexeme} (hn : isName n)
      (hmax : ∀ c ∈ cs.head?, continuesName c = false) (h : Spaced ls cs) :
      Spaced (.name n :: ls) (n.toList ++ cs)
  | mark {c : Char} {cs : List Char} {ls : List Lexeme} (hblank : Text.isBlank c = false)
      (hname : startsName c = false) (h : Spaced ls cs) : Spaced (.mark c :: ls) (c :: cs)

theorem isBlank_of_startsName {c : Char} (h : startsName c) : Text.isBlank c = false := by
  have hrange : 65 ≤ c.toNat ∧ c.toNat ≤ 122 := by
    simp only [startsName, Char.isAlpha, Char.isUpper, Char.isLower, Bool.or_eq_true, Bool.and_eq_true,
      decide_eq_true_eq, beq_iff_eq, UInt32.le_iff_toNat_le, ge_iff_le] at h
    rcases h with (h | h) | rfl
    · exact ⟨h.1, h.2.trans (by decide)⟩
    · exact ⟨le_trans (by decide) h.1, h.2⟩
    · decide
  simp [Text.isBlank, Text.blankRanges]
  omega

/-- A text that stands for an expression in front of any text that does not go on with a name. -/
def Writes (e : TypeExpr) (text : List Char) : Prop :=
  ∀ ls cs, Spaced ls cs → (∀ c ∈ cs.head?, continuesName c = false) →
    Spaced (e.lexemes ++ ls) (text ++ cs)

theorem Writes.spaced {e : TypeExpr} {text : List Char} (h : Writes e text) : Spaced e.lexemes text := by
  have hend := h [] [] .nil (by rintro _ ⟨⟩)
  rwa [List.append_nil, List.append_nil] at hend

theorem writes_name {n : String} (hn : isName n) : Writes (.name n) n.toList :=
  fun _ _ h hmax => .name hn hmax h

theorem continuesName_of_head? {c : Char} {cs : List Char} (hc : continuesName c = false) :
    ∀ d ∈ (c :: cs).head?, continuesName d = false := by
  rintro d ⟨⟩
  exact hc

/-- A name with empty slots. -/
theorem writes_slots {n : String} (hn : isName n) (arity : Nat) :
    Writes (.slots n arity) (n.toList ++ '<' :: (List.replicate (arity - 1) ',' ++ ['>'])) := by
  intro ls cs h hmax
  have hclose : Spaced (.mark '>' :: ls) ('>' :: cs) := .mark (by decide) (by decide) h
  have hcommas : ∀ k, Spaced (List.replicate k (.mark ',') ++ .mark '>' :: ls)
      (List.replicate k ',' ++ '>' :: cs) := by
    intro k
    induction k with
    | zero => exact hclose
    | succ k ih => exact .mark (by decide) (by decide) ih
  rw [lexemes]
  simp only [List.cons_append, List.append_assoc, List.nil_append]
  exact .name hn (continuesName_of_head? (by decide)) (.mark (by decide) (by decide) (hcommas _))

/-- Expressions with commas and blanks between them. -/
theorem spaced_intercalate {e : TypeExpr} {es : List TypeExpr} {text : List Char}
    {texts : List (List Char)} (he : Writes e text) (hes : List.Forall₂ Writes es texts)
    {ls : List Lexeme} {cs : List Char} (h : Spaced ls cs) (hmax : ∀ c ∈ cs.head?, continuesName c = false) :
    Spaced (e.lexemes ++ (lexemesAfter es ++ ls)) ([',', ' '].intercalate (text :: texts) ++ cs) := by
  induction hes generalizing e text with
  | nil =>
    rw [List.intercalate_singleton]
    exact he ls cs h hmax
  | cons he' _ ih =>
    rw [List.intercalate_cons_cons, List.append_assoc, List.append_assoc, lexemesAfter, List.cons_append,
      List.append_assoc]
    refine he _ _ (.mark (by decide) (by decide) (.blank (by decide) (ih he'))) ?_
    exact continuesName_of_head? (by decide)

/-- A name with arguments. -/
theorem writes_apply {n : String} {args : List TypeExpr} {texts : List (List Char)} (hn : isName n)
    (hargs : List.Forall₂ Writes args texts) (hne : args ≠ []) :
    Writes (.apply n args) (n.toList ++ '<' :: ([',', ' '].intercalate texts ++ ['>'])) := by
  intro ls cs h hmax
  have hclose : Spaced (.mark '>' :: ls) ('>' :: cs) := .mark (by decide) (by decide) h
  cases hargs with
  | nil => exact absurd rfl hne
  | cons he hes =>
    rw [lexemes]
    simp only [List.cons_append, List.append_assoc, List.nil_append]
    refine .name hn (continuesName_of_head? (by decide)) (.mark (by decide) (by decide) ?_)
    exact spaced_intercalate he hes hclose (continuesName_of_head? (by decide))

namespace Token

variable {c : Char} {cs rest : List Char}

theorem scan_of_blank (hc : Text.isBlank c) (offset : Nat) :
    scan offset none (c :: cs) = scan (offset + c.utf8Size) none cs := by
  simp [scan, ofPending, hc]

theorem scan_of_mark (hblank : Text.isBlank c = false) (hname : startsName c = false) (offset : Nat) :
    scan offset none (c :: cs) = .mark offset c :: scan (offset + c.utf8Size) none cs := by
  simp [scan, ofPending, hblank, hname]

theorem scan_of_startsName (hc : startsName c) (offset : Nat) :
    scan offset none (c :: cs) = scan (offset + c.utf8Size) (some (offset, c, [])) cs := by
  simp [scan, ofPending, isBlank_of_startsName hc, hc]

/-- A name ends before a character that cannot stand inside it. -/
theorem scan_of_ended (h : ∀ c ∈ cs.head?, continuesName c = false) (offset : Nat)
    (pending : Nat × Char × List Char) :
    scan offset (some pending) cs = ofPending (some pending) ++ scan offset none cs := by
  cases cs with
  | nil => simp [scan, ofPending]
  | cons c cs => simp [scan, h c rfl, ofPending]

/-- A name is read to its end. -/
theorem scan_of_continues (hcs : cs.all continuesName)
    (hrest : ∀ c ∈ rest.head?, continuesName c = false) (offset start : Nat) (first : Char) (read : List Char) :
    ∃ after, scan offset (some (start, first, read)) (cs ++ rest) =
      .name start first (read.reverse ++ cs) :: scan after none rest := by
  induction cs generalizing offset read with
  | nil => exact ⟨offset, by rw [List.nil_append, List.append_nil, scan_of_ended hrest]; rfl⟩
  | cons c cs ih =>
    rw [List.all_cons, Bool.and_eq_true] at hcs
    obtain ⟨after, h⟩ := ih hcs.2 (offset + c.utf8Size) (c :: read)
    refine ⟨after, ?_⟩
    rw [List.cons_append, scan]
    · rw [h, List.reverse_cons, List.append_assoc, List.singleton_append]
    · exact hcs.1

/-- A text is cut into the lexemes that it is spaced out of. -/
theorem map_lexeme_scan {ls : List Lexeme} (h : Spaced ls cs) (offset : Nat) :
    (scan offset none cs).map lexeme = ls := by
  induction h generalizing offset with
  | nil => rfl
  | blank hc _ ih => rw [scan_of_blank hc, ih]
  | mark hblank hname _ ih => rw [scan_of_mark hblank hname, List.map_cons, ih, lexeme]
  | @name n cs ls hn hmax _ ih =>
    cases hchars : n.toList with
    | nil => simp [isName, hchars] at hn
    | cons c rest =>
      simp only [isName, hchars, Bool.and_eq_true] at hn
      obtain ⟨after, hscan⟩ := scan_of_continues hn.2 hmax (offset + c.utf8Size) offset c []
      rw [List.cons_append, scan_of_startsName hn.1, hscan, List.map_cons, ih, lexeme,
        List.reverse_nil, List.nil_append, ← hchars, String.ofList_toList]

end Token

/-! ## Reading -/

namespace Parser

variable {α β : Type} {room : Nat} {ls mid rest : List Lexeme}

/-- With room for so many levels, the parser takes `a` off the lexemes and leaves the rest. -/
def Takes (room : Nat) (x : Parser α) (ls : List Lexeme) (a : α) (rest : List Lexeme) : Prop :=
  ∀ (ts : List Token) (g : DepthGauge), ts.map Token.lexeme = ls → g.depth + room ≤ g.limit →
    ∃ ts', ts'.map Token.lexeme = rest ∧ x.run ⟨ts, g⟩ = (.ok a, ⟨ts', g⟩)

theorem Takes.pure (a : α) : Takes room (pure a) ls a ls :=
  fun ts _ hts _ => ⟨ts, hts, rfl⟩

theorem run_bind_of_ok {x : Parser α} {f : α → Parser β} {s s' : Cursor} {a : α}
    (h : x.run s = (.ok a, s')) : (x >>= f).run s = (f a).run s' := by
  have hbind : ∀ {γ δ : Type} (y : StateM Cursor γ) (k : γ → StateM Cursor δ),
      (y >>= k) s = k (y s).1 (y s).2 := fun _ _ => rfl
  rw [ExceptT.run_bind, hbind, h]

theorem Takes.bind {x : Parser α} {f : α → Parser β} {a : α} {b : β} (hx : Takes room x ls a mid)
    (hf : Takes room (f a) mid b rest) : Takes room (x >>= f) ls b rest := by
  intro ts g hts hg
  obtain ⟨ts', hts', hrun⟩ := hx ts g hts hg
  obtain ⟨ts'', hts'', hrun'⟩ := hf ts' g hts' hg
  exact ⟨ts'', hts'', by rw [run_bind_of_ok hrun, hrun']⟩

/-- A parser may look at how much is left. -/
theorem Takes.get {f : Cursor → Parser α} {a : α}
    (h : ∀ s, s.rest.length = ls.length → Takes room (f s) ls a rest) :
    Takes room (get >>= f) ls a rest := by
  intro ts g hts hg
  have hlen : ts.length = ls.length := by rw [← hts, List.length_map]
  exact h ⟨ts, g⟩ hlen ts g hts hg

theorem typeName_takes (n : String) : Takes room typeName (.name n :: ls) n ls := by
  intro ts g hts hg
  obtain ⟨t, ts', rfl, ht, hts'⟩ := List.map_eq_cons_iff.1 hts
  cases t with
  | name offset first others =>
    cases ht
    exact ⟨ts', hts', rfl⟩
  | mark offset c => cases ht

theorem peekMark_takes (ls : List Lexeme) : Takes room peekMark ls (Lexeme.front? ls) ls := by
  intro ts g hts hg
  refine ⟨ts, hts, ?_⟩
  subst hts
  cases ts with
  | nil => rfl
  | cons t ts => cases t <;> rfl

theorem accept_takes (c : Char) : Takes room (accept c) (.mark c :: ls) true ls := by
  refine Takes.bind (peekMark_takes _) ?_
  rw [if_pos (show Lexeme.front? (.mark c :: ls) = some c from rfl)]
  intro ts g hts hg
  obtain ⟨t, ts', rfl, -, hts'⟩ := List.map_eq_cons_iff.1 hts
  exact ⟨ts', hts', rfl⟩

/-- A character that does not come next is not taken. -/
theorem accept_leaves {c : Char} (h : Lexeme.front? ls ≠ some c) :
    Takes room (accept c) ls false ls := by
  refine Takes.bind (peekMark_takes _) ?_
  rw [if_neg h]
  exact .pure false

theorem expect_takes (c : Char) : Takes room (expect c) (.mark c :: ls) () ls := by
  intro ts g hts hg
  obtain ⟨t, ts', rfl, ht, hts'⟩ := List.map_eq_cons_iff.1 hts
  cases t with
  | name offset first others => cases ht
  | mark offset c' =>
    cases ht
    refine ⟨ts', hts', ?_⟩
    show (if c = c then _ else _ : Parser Unit).run _ = _
    rw [if_pos rfl]
    rfl

theorem commas_takes {k bound : Nat} (hbound : k ≤ bound) (hls : Lexeme.front? ls ≠ some ',') :
    Takes room (commas bound) (List.replicate k (.mark ',') ++ ls) k ls := by
  induction bound generalizing k with
  | zero =>
    obtain rfl := Nat.le_zero.1 hbound
    exact .pure 0
  | succ bound ih =>
    cases k with
    | zero => exact Takes.bind (accept_leaves hls) (.pure 0)
    | succ k =>
      rw [List.replicate_succ, List.cons_append]
      refine Takes.bind (accept_takes ',') ?_
      exact Takes.bind (ih (Nat.le_of_succ_le_succ hbound)) (.pure (k + 1))

/-- A parser takes an expression off whatever can follow it. -/
def TakesExpr (room : Nat) (x : Parser TypeExpr) (e : TypeExpr) : Prop :=
  ∀ rest, Lexeme.front? rest ≠ some '<' → Takes room x (e.lexemes ++ rest) e rest

theorem front?_lexemesAfter {c : Char} (es : List TypeExpr) (hc : c ≠ ',')
    (hrest : Lexeme.front? rest ≠ some c) : Lexeme.front? (lexemesAfter es ++ rest) ≠ some c := by
  cases es with
  | nil => exact hrest
  | cons e es =>
    rw [lexemesAfter]
    exact fun h => hc (Option.some.inj h).symm

theorem others_takes {item : Parser TypeExpr} {es : List TypeExpr} {bound : Nat}
    (hitem : ∀ e ∈ es, TakesExpr room item e) (hbound : es.length ≤ bound)
    (hcomma : Lexeme.front? rest ≠ some ',') (hopen : Lexeme.front? rest ≠ some '<') :
    Takes room (others item bound) (lexemesAfter es ++ rest) es rest := by
  induction bound generalizing es with
  | zero =>
    obtain rfl := List.eq_nil_of_length_eq_zero (Nat.le_zero.1 hbound)
    exact .pure []
  | succ bound ih =>
    cases es with
    | nil => exact Takes.bind (accept_leaves hcomma) (.pure [])
    | cons e es =>
      rw [lexemesAfter, List.cons_append, List.append_assoc]
      refine Takes.bind (accept_takes ',') (Takes.bind (hitem e List.mem_cons_self _ ?_) ?_)
      · exact front?_lexemesAfter es (by decide) hopen
      · refine Takes.bind (ih (fun e he => hitem e (List.mem_cons_of_mem _ he)) ?_) (.pure (e :: es))
        exact Nat.le_of_succ_le_succ hbound

/-- Empty slots between brackets. -/
theorem argumentsOf_takes_slots (n : String) (inner : Parser TypeExpr) (k : Nat) :
    Takes room (argumentsOf n inner) (List.replicate k (.mark ',') ++ .mark '>' :: rest)
      (.slots n (k + 1)) rest := by
  refine Takes.get fun s hs => ?_
  refine Takes.bind (peekMark_takes _) ?_
  have hbound : k ≤ s.rest.length := by
    rw [hs, List.length_append, List.length_replicate]
    exact Nat.le_add_right _ _
  have hbody : Takes room
      (do
        let separators ← commas s.rest.length
        expect '>'
        return .slots n (separators + 1) : Parser TypeExpr)
      (List.replicate k (.mark ',') ++ .mark '>' :: rest) (.slots n (k + 1)) rest := by
    refine Takes.bind (commas_takes hbound ?_) (Takes.bind (expect_takes '>') (.pure _))
    rintro ⟨⟩
  cases k with
  | zero => exact hbody
  | succ k => exact hbody

/-- Arguments between brackets. -/
theorem argumentsOf_takes_args (n : String) {inner : Parser TypeExpr} {e : TypeExpr} {es : List TypeExpr}
    (hinner : ∀ e' ∈ e :: es, TakesExpr room inner e') :
    Takes room (argumentsOf n inner) (e.lexemes ++ (lexemesAfter es ++ .mark '>' :: rest))
      (.apply n (e :: es)) rest := by
  refine Takes.get fun s hs => ?_
  refine Takes.bind (peekMark_takes _) ?_
  obtain ⟨n', ls, hlexemes⟩ := e.exists_lexemes_eq
  have hfront : Lexeme.front? (e.lexemes ++ (lexemesAfter es ++ .mark '>' :: rest)) = none := by
    rw [hlexemes]
    rfl
  rw [hfront]
  have hcomma : Lexeme.front? (.mark '>' :: rest) ≠ some ',' := by rintro ⟨⟩
  have hopen : Lexeme.front? (.mark '>' :: rest) ≠ some '<' := by rintro ⟨⟩
  have hbound : es.length ≤ s.rest.length := by
    have hlen := length_le_length_lexemesAfter es
    rw [hs, List.length_append, List.length_append]
    omega
  refine Takes.bind (hinner e List.mem_cons_self _ (front?_lexemesAfter es (by decide) hopen)) ?_
  have hothers : ∀ e' ∈ es, TakesExpr room inner e' := fun e' he => hinner e' (List.mem_cons_of_mem _ he)
  refine Takes.bind (others_takes hothers hbound hcomma hopen) ?_
  exact Takes.bind (expect_takes '>') (.pure _)

/-- An expression, if those inside it can be read. -/
theorem exprWith_takes {inner : Parser TypeExpr} {levels : Nat} {e : TypeExpr} (he : e.fits (levels + 1))
    (hinner : ∀ e', e'.fits levels → TakesExpr room inner e') : TakesExpr room (exprWith inner) e := by
  intro rest hrest
  cases e with
  | name n => exact Takes.bind (typeName_takes n) (Takes.bind (accept_leaves hrest) (.pure _))
  | slots n arity =>
    obtain ⟨k, rfl⟩ : ∃ k, arity = k + 1 := Nat.exists_eq_succ_of_ne_zero (bne_iff_ne.1 he)
    rw [lexemes, List.cons_append, List.cons_append, List.append_assoc, Nat.add_sub_cancel]
    refine Takes.bind (typeName_takes n) (Takes.bind (accept_takes '<') ?_)
    exact argumentsOf_takes_slots n inner k
  | apply n args =>
    rw [fits, Bool.and_eq_true, List.all_eq_true] at he
    cases args with
    | nil => cases he.1
    | cons arg args =>
      rw [lexemes, List.cons_append, List.cons_append, List.append_assoc, List.append_assoc]
      refine Takes.bind (typeName_takes n) (Takes.bind (accept_takes '<') ?_)
      exact argumentsOf_takes_args n fun e he' => hinner e (he.2 e he')

theorem run_deeper (x : Parser α) (s : Cursor) :
    (deeper x).run s = ((x.run s).1, { (x.run s).2 with gauge := (x.run s).2.gauge.leave }) :=
  rfl

/-- A gauge comes back to where it was. -/
theorem deeper_takes {x : Parser α} {a : α} (h : Takes room x ls a rest) :
    Takes (room + 1) (do
      unless ← enter do
        throw .tooDeep
      deeper x) ls a rest := by
  intro ts g hts hg
  have henter : g.enter = (true, { g with depth := g.depth + 1 }) := by
    rw [DepthGauge.enter, if_neg (by omega)]
  have hrun : enter.run ⟨ts, g⟩ = (.ok true, ⟨ts, { g with depth := g.depth + 1 }⟩) := by
    show (Except.ok g.enter.1, (⟨ts, g.enter.2⟩ : Cursor)) = _
    rw [henter]
  have hroom : g.depth + 1 + room ≤ g.limit := by omega
  obtain ⟨ts', hts', hx⟩ := h ts { g with depth := g.depth + 1 } hts hroom
  refine ⟨ts', hts', ?_⟩
  rw [run_bind_of_ok hrun]
  show (deeper x).run _ = _
  rw [run_deeper, hx]
  rfl

theorem expr_takes {levels : Nat} {e : TypeExpr} (he : e.fits levels) :
    TakesExpr levels (expr levels) e := by
  induction levels generalizing e with
  | zero => cases he
  | succ levels ih =>
    intro rest hrest
    exact deeper_takes (exprWith_takes he (fun e' he' => ih he') rest hrest)

end Parser

/-- A text that is spaced out of the lexemes of an expression is read as the expression. -/
theorem parse_of_spaced {e : TypeExpr} {input : String} (he : e.fits maxLevel)
    (h : Spaced e.lexemes input.toList) : parse input = .ok e := by
  have hlexemes : (Token.ofText input).map Token.lexeme = e.lexemes ++ [] := by
    rw [List.append_nil]
    exact Token.map_lexeme_scan h 0
  have hnil : Lexeme.front? [] ≠ some '<' := by rintro ⟨⟩
  obtain ⟨ts', hts', hrun⟩ := Parser.expr_takes he [] hnil _ (.new maxLevel) hlexemes (Nat.zero_add _).le
  obtain rfl := List.map_eq_nil_iff.1 hts'
  rw [parse, Parser.whole, Parser.run_bind_of_ok hrun]
  rfl

end Subtyping.TypeExpr
