import Mathlib
import Subtyping.Json.Reader
import Subtyping.Json.Value

/-!
# Written JSON is read back

The text of a value is read as the value (`Json.Value.toNode`), whatever is written after it, as long as
that does not go on with a number (`Json.readWithin_prettyAt`). This takes a value that nests no more
deeply than the reader goes, and numbers that the reader keeps as they are (`Json.Value.Readable`). Strings
may hold any characters: each is read back from what it is written as (`Json.readString_escapeChar`).
-/

namespace Subtyping.Json

/-! ## What a text reads as -/

namespace Value

mutual

/-- What the text of a value reads as. -/
def toNode : Value → Node
  | null => .null
  | bool b => .bool b
  | nat n => .number (.nat n)
  | string s => .string s
  | list items => .list (toNodes items) none
  | object members => .object (toMembers members) none

def toNodes : List Value → List Node
  | [] => []
  | item :: items => item.toNode :: toNodes items

def toMembers : List (String × Value) → List (String × Node)
  | [] => []
  | (key, value) :: members => (key, value.toNode) :: toMembers members

end

theorem toNodes_eq_map (items : List Value) : toNodes items = items.map toNode := by
  induction items with
  | nil => rfl
  | cons item items ih => rw [toNodes, ih, List.map_cons]

/-- Lists and objects nest at most `levels` deep, and numbers are small enough to be kept as they are. -/
inductive Readable : (levels : Nat) → Value → Prop where
  | null {levels : Nat} : Readable levels .null
  | bool {levels : Nat} (b : Bool) : Readable levels (.bool b)
  | nat {levels n : Nat} (h : n < Number.natLimit) : Readable levels (.nat n)
  | string {levels : Nat} (s : String) : Readable levels (.string s)
  | list {levels : Nat} {items : List Value} (h : ∀ v ∈ items, Readable levels v) :
      Readable (levels + 1) (.list items)
  | object {levels : Nat} {members : List (String × Value)} (h : ∀ p ∈ members, Readable levels p.2) :
      Readable (levels + 1) (.object members)

end Value

open Value

/-- What may be written after a value. -/
def Ends (cs : List Char) : Prop :=
  ∀ c ∈ cs.head?, c = ',' ∨ c = '\n'

theorem Ends.nil : Ends [] := by
  simp [Ends]

theorem Ends.cons {c : Char} (h : c = ',' ∨ c = '\n') (cs : List Char) : Ends (c :: cs) := by
  simpa [Ends] using h

/-! ## Blanks -/

theorem skipSpace_cons {c : Char} (h : isSpace c = false) (cs : List Char) :
    skipSpace (c :: cs) = c :: cs := by
  rw [skipSpace, List.dropWhile_cons_of_neg (by simp [h])]

theorem toList_newline (depth : Nat) :
    (newline depth).toList = '\n' :: List.replicate (2 * depth) ' ' := by
  simp [newline]

theorem skipSpace_newline (depth : Nat) (cs : List Char) :
    skipSpace ((newline depth).toList ++ cs) = skipSpace cs := by
  refine List.dropWhile_append_of_pos fun c hc => ?_
  rw [toList_newline, List.mem_cons] at hc
  rcases hc with rfl | hc
  · decide
  · rw [List.eq_of_mem_replicate hc]
    decide

/-- A value is read after blanks as it is without them. -/
theorem readWithin_skipSpace (levels : Nat) {cs cs' : List Char} (h : skipSpace cs = skipSpace cs') :
    Node.readWithin levels cs = Node.readWithin levels cs' := by
  rw [Node.readWithin, Node.readWithin, h]

/-! ## Strings -/

theorem hexValue?_digitChar : ∀ n < 16, hexValue? (Nat.digitChar n) = some n := by
  decide

/-- A control character is read back from its escape. -/
theorem readEscape_control {c : Char} (h : c.toNat < 0x20) (cs : List Char) :
    readEscape ('u' :: '0' :: '0' :: Nat.digitChar (c.toNat / 16) :: Nat.digitChar (c.toNat % 16) :: cs) =
      .ok (c, cs) := by
  have hzero : hexValue? '0' = some 0 := by decide
  have hcode : ((0 * 16 + 0) * 16 + c.toNat / 16) * 16 + c.toNat % 16 = c.toNat := by omega
  have hhex : readHex ('0' :: '0' :: Nat.digitChar (c.toNat / 16) :: Nat.digitChar (c.toNat % 16) :: cs) =
      .ok (c.toNat, cs) := by
    rw [readHex, hzero, hexValue?_digitChar _ (by omega), hexValue?_digitChar _ (by omega)]
    dsimp only
    rw [hcode]
  rw [readEscape, hhex]
  show (if 0xDC00 ≤ c.toNat ∧ c.toNat ≤ 0xDFFF then _ else _) = _
  rw [if_neg (by omega)]
  show (if 0xD800 ≤ c.toNat ∧ c.toNat < 0xDC00 then _ else _) = _
  rw [if_neg (by omega), Char.ofNat_toNat]
  rfl

/-- Each character of a string is read back from what it is written as. -/
theorem readString_escapeChar (c : Char) (before : List Char) (bound : Nat) (cs : List Char) :
    readString before (bound + 1) (escapeChar c ++ cs) = readString (c :: before) bound cs := by
  unfold escapeChar
  split
  · rfl
  · rfl
  · rfl
  · rfl
  · rfl
  · rfl
  · rfl
  · rename_i hquote hback _ _ _ _ _
    split_ifs with hcontrol
    · have hescape := readEscape_control hcontrol cs
      simp only [List.cons_append, List.nil_append]
      rw [readString, if_neg (by decide), if_pos rfl, hescape]
      rfl
    · rw [List.singleton_append, readString, if_neg hquote, if_neg hback, if_neg hcontrol]

/-- A string is read back after its opening quote. -/
theorem readString_escaped (text before : List Char) {bound : Nat} (h : text.length < bound)
    (cs : List Char) :
    readString before bound (text.flatMap escapeChar ++ '"' :: cs) =
      .ok (String.ofList (before.reverse ++ text), cs) := by
  induction text generalizing before bound with
  | nil =>
    obtain ⟨bound, rfl⟩ : ∃ k, bound = k + 1 := ⟨bound - 1, by omega⟩
    rw [List.flatMap_nil, List.nil_append, readString, if_pos rfl, List.append_nil]
  | cons c text ih =>
    rw [List.length_cons] at h
    obtain ⟨bound, rfl⟩ : ∃ k, bound = k + 1 := ⟨bound - 1, by omega⟩
    rw [List.flatMap_cons, List.append_assoc, readString_escapeChar, ih (c :: before) (by omega),
      List.reverse_cons, List.append_assoc, List.singleton_append]

theorem length_le_flatMap_escapeChar (text : List Char) :
    text.length ≤ (text.flatMap escapeChar).length := by
  have hpos : ∀ c, 1 ≤ (escapeChar c).length := fun c => by
    unfold escapeChar
    repeat' split
    all_goals simp
  induction text with
  | nil => exact Nat.le_refl 0
  | cons c text ih =>
    have := hpos c
    rw [List.flatMap_cons, List.length_append, List.length_cons]
    omega

theorem toList_quote (s : String) :
    (quote s).toList = '"' :: (s.toList.flatMap escapeChar ++ ['"']) := by
  simp [quote]

/-- A quoted string is read back after its opening quote, with the length of the text as a bound. -/
theorem readString_quote (s : String) (cs : List Char) :
    let text := s.toList.flatMap escapeChar ++ '"' :: cs
    readString [] text.length text = .ok (s, cs) := by
  intro text
  have hlen : s.toList.length < text.length := by
    have := length_le_flatMap_escapeChar s.toList
    simp only [text, List.length_append, List.length_cons]
    omega
  rw [readString_escaped s.toList [] hlen cs]
  simp

/-! ## Numbers -/

/-- What comes after a number does not go on with it. -/
theorem Ends.not_isDigit {cs : List Char} (h : Ends cs) : ∀ c ∈ cs.head?, c.isDigit = false := by
  intro c hc
  rcases h c hc with rfl | rfl <;> decide

/-- The decimal digits of a number, the first of them apart. -/
theorem exists_toDigits_eq_cons (n : Nat) :
    ∃ d ds, Nat.toDigits 10 n = d :: ds ∧ d.isDigit = true := by
  obtain ⟨d, ds, hd⟩ := List.exists_cons_of_ne_nil (Nat.toDigits_ne_nil (n := n) (b := 10))
  exact ⟨d, ds, hd, Nat.isDigit_of_mem_toDigits (by decide) (by decide) (hd ▸ List.mem_cons_self)⟩

theorem isSpace_of_isDigit {c : Char} (h : c.isDigit = true) : isSpace c = false := by
  by_contra hspace
  rw [Bool.not_eq_false, isSpace] at hspace
  simp only [Bool.or_eq_true, beq_iff_eq] at hspace
  rcases hspace with ((rfl | rfl) | rfl) | rfl <;> exact absurd h (by decide)

theorem readWithin_of_isDigit {c : Char} (h : c.isDigit = true) (levels : Nat) (cs : List Char) :
    Node.readWithin levels (c :: cs) = ofResult .number (Number.read (c :: cs)) := by
  rw [Node.readWithin, skipSpace_cons (isSpace_of_isDigit h)]
  dsimp only
  split
  case h_7 => rw [if_pos (.inr h)]
  all_goals exact absurd h (by decide)

theorem takeWhile_isDigit {ds cs : List Char} (hd : ∀ c ∈ ds, c.isDigit = true) (h : Ends cs) :
    (ds ++ cs).takeWhile Char.isDigit = ds ∧ (ds ++ cs).dropWhile Char.isDigit = cs := by
  rw [List.takeWhile_append_of_pos hd, List.dropWhile_append_of_pos hd]
  cases cs with
  | nil => simp
  | cons c cs =>
    have hc : ¬ c.isDigit = true := by simp [h.not_isDigit c rfl]
    rw [List.takeWhile_cons_of_neg hc, List.dropWhile_cons_of_neg hc, List.append_nil]
    exact ⟨rfl, rfl⟩

namespace Number

theorem leading_concat {limit start m : Nat} {ds : List Char} {c : Char}
    (h : leading limit start ds = (m, 0)) (hlt : 10 * m + digitValue c < limit) :
    leading limit start (ds ++ [c]) = (10 * m + digitValue c, 0) := by
  induction ds generalizing start with
  | nil =>
    obtain rfl : start = m := congrArg Prod.fst h
    simp [leading, hlt]
  | cons d ds ih =>
    rw [leading] at h
    rw [List.cons_append, leading]
    split_ifs at h ⊢ with hnext
    · exact ih h
    · cases congrArg Prod.snd h

theorem digitValue_digitChar : ∀ n < 10, digitValue (Nat.digitChar n) = n := by
  decide

/-- All digits of a number below the limit are leading ones. -/
theorem leading_toDigits {limit n : Nat} (h : n < limit) :
    leading limit 0 (Nat.toDigits 10 n) = (n, 0) := by
  induction n using Nat.strongRecOn with
  | _ n ih =>
    rw [Nat.toDigits_eq_if (by decide)]
    split_ifs with hlt
    · have hvalue := digitValue_digitChar n hlt
      simp [leading, hvalue, h]
    · have hvalue := digitValue_digitChar (n % 10) (by omega)
      have hrest := leading_concat (c := Nat.digitChar (n % 10)) (ih (n / 10) (by omega) (by omega))
        (by rw [hvalue]; omega)
      rw [hrest, hvalue, Nat.div_add_mod]

/-- No number is written with a zero in front. -/
theorem toDigits_ne_zero_cons (n : Nat) (c : Char) (cs : List Char) :
    Nat.toDigits 10 n ≠ '0' :: c :: cs := by
  have hfirst : ∀ n, 0 < n → (Nat.toDigits 10 n).head? ≠ some '0' := by
    intro n
    induction n using Nat.strongRecOn with
    | _ n ih =>
      intro hpos
      rw [Nat.toDigits_eq_if (by decide)]
      split_ifs with hlt
      · have hdigit : ∀ n < 10, 0 < n → Nat.digitChar n ≠ '0' := by decide
        simpa using hdigit n hlt hpos
      · rw [List.head?_append_of_ne_nil _ Nat.toDigits_ne_nil]
        exact ih (n / 10) (by omega) (by omega)
  intro h
  rcases Nat.eq_zero_or_pos n with rfl | hpos
  · rw [Nat.toDigits_zero] at h
    cases h
  · exact hfirst n hpos (by rw [h]; rfl)

theorem read_toDigits {n : Nat} (hn : n < natLimit) {cs : List Char} (h : Ends cs) :
    read (Nat.toDigits 10 n ++ cs) = .ok (.nat n, cs) := by
  have hdigits : ∀ c ∈ Nat.toDigits 10 n, c.isDigit = true := fun c hc =>
    Nat.isDigit_of_mem_toDigits (by decide) (by decide) hc
  obtain ⟨htake, hdrop⟩ := takeWhile_isDigit hdigits h
  have hunsigned : read (Nat.toDigits 10 n ++ cs) = readUnsigned false (Nat.toDigits 10 n ++ cs) := by
    obtain ⟨d, ds, hd, hdigit⟩ := exists_toDigits_eq_cons n
    have hminus : d ≠ '-' := by
      rintro rfl
      exact absurd hdigit (by decide)
    rw [hd, List.cons_append]
    unfold read
    split
    · rename_i heq
      exact absurd (List.cons.inj heq).1 hminus
    · rfl
  rw [hunsigned, readUnsigned, htake, hdrop]
  dsimp only
  split
  · rename_i hnil
    exact absurd hnil Nat.toDigits_ne_nil
  · rename_i hzero
    exact absurd hzero (toDigits_ne_zero_cons n _ _)
  · rw [leading_toDigits hn]
    dsimp only
    split
    · rcases h '.' rfl with hc | hc <;> exact absurd hc (by decide)
    · rcases h 'e' rfl with hc | hc <;> exact absurd hc (by decide)
    · rcases h 'E' rfl with hc | hc <;> exact absurd hc (by decide)
    · rfl

end Number

/-! ## Lists and objects -/

/-- What is written after the first part between two brackets. -/
def following (close : Char) (depth : Nat) (parts : List String) : List Char :=
  parts.flatMap (fun part => ',' :: ((newline (depth + 1)).toList ++ part.toList)) ++
    (newline depth).toList ++ [close]

theorem following_nil (close : Char) (depth : Nat) :
    following close depth [] = (newline depth).toList ++ [close] := by
  simp [following]

theorem following_cons (close : Char) (depth : Nat) (part : String) (parts : List String) :
    following close depth (part :: parts) =
      ',' :: ((newline (depth + 1)).toList ++ (part.toList ++ following close depth parts)) := by
  simp [following]

theorem length_lt_following (close : Char) (depth : Nat) (parts : List String) :
    parts.length < (following close depth parts).length := by
  induction parts with
  | nil => simp [following_nil]
  | cons part parts ih =>
    simp only [following_cons, List.length_cons, List.length_append]
    omega

theorem ends_following (close : Char) (depth : Nat) (parts : List String) (cs : List Char) :
    Ends (following close depth parts ++ cs) := by
  cases parts with
  | nil =>
    rw [following_nil, toList_newline]
    exact .cons (.inr rfl) _
  | cons part parts =>
    rw [following_cons]
    exact .cons (.inl rfl) _

theorem length_prettyItems (depth : Nat) (items : List Value) :
    (prettyItems depth items).length = items.length := by
  induction items with
  | nil => rfl
  | cons item items ih => rw [prettyItems, List.length_cons, ih, List.length_cons]

theorem length_prettyMembers (depth : Nat) (members : List (String × Value)) :
    (prettyMembers depth members).length = members.length := by
  induction members with
  | nil => rfl
  | cons member members ih => rw [prettyMembers, List.length_cons, ih, List.length_cons]

section Enclose

variable {left right : String} (opening close : Char) (hopen : left.toList = [opening])
  (hclose : right.toList = [close]) (depth : Nat)
include hopen hclose

theorem toList_enclose_nil : (enclose depth left right []).toList = [opening, close] := by
  rw [enclose, String.toList_append, hopen, hclose, List.singleton_append]

theorem toList_enclose_cons (part : String) (parts : List String) :
    (enclose depth left right (part :: parts)).toList =
      opening :: ((newline (depth + 1)).toList ++ (part.toList ++ following close depth parts)) := by
  have hparts : ∀ (part : String) (parts : List String),
      List.intercalate [','] ((part :: parts).map fun part => (newline (depth + 1)).toList ++ part.toList) =
        (newline (depth + 1)).toList ++ part.toList ++
          parts.flatMap fun part => ',' :: ((newline (depth + 1)).toList ++ part.toList) := by
    intro part parts
    induction parts generalizing part with
    | nil => simp
    | cons next parts ih =>
      have hnext := ih next
      rw [List.map_cons] at hnext
      rw [List.map_cons, List.map_cons, List.intercalate_cons_cons, hnext]
      simp
  rw [enclose]
  · have hcomma : ",".toList = [','] := rfl
    simp only [String.toList_append, String.toList_intercalate, List.map_map, hcomma, hopen, hclose,
      Function.comp_def, hparts, following, List.append_assoc, List.cons_append,
      List.nil_append]
  · simp

end Enclose

section List

variable {read : ReadNode} {depth : Nat} {items : List Value}

/-- The reader reads a value back wherever it is written. -/
def ReadsBack (read : ReadNode) (depth : Nat) (v : Value) : Prop :=
  ∀ cs, Ends cs → read ((v.prettyAt depth).toList ++ cs) = (v.toNode, some cs)

/-- A value is written with a first character that neither is blank nor closes a list. -/
theorem exists_prettyAt_eq_cons (depth : Nat) (v : Value) :
    ∃ c cs, (v.prettyAt depth).toList = c :: cs ∧ isSpace c = false ∧ c ≠ ']' := by
  cases v with
  | null => exact ⟨'n', ['u', 'l', 'l'], by simp [prettyAt], by decide, by decide⟩
  | bool b =>
    cases b with
    | true => exact ⟨'t', ['r', 'u', 'e'], by simp [prettyAt], by decide, by decide⟩
    | false => exact ⟨'f', ['a', 'l', 's', 'e'], by simp [prettyAt], by decide, by decide⟩
  | nat n =>
    obtain ⟨d, ds, hd, hdigit⟩ := exists_toDigits_eq_cons n
    refine ⟨d, ds, by rw [prettyAt, String.toList_ofList, hd], isSpace_of_isDigit hdigit, ?_⟩
    rintro rfl
    exact absurd hdigit (by decide)
  | string s =>
    rw [prettyAt, toList_quote]
    exact ⟨'"', _, rfl, by decide, by decide⟩
  | list items =>
    rw [prettyAt]
    cases hparts : prettyItems (depth + 1) items with
    | nil =>
      rw [toList_enclose_nil '[' ']' rfl rfl]
      exact ⟨'[', _, rfl, by decide, by decide⟩
    | cons part parts =>
      rw [toList_enclose_cons '[' ']' rfl rfl]
      exact ⟨'[', _, rfl, by decide, by decide⟩
  | object members =>
    rw [prettyAt]
    cases hparts : prettyMembers (depth + 1) members with
    | nil =>
      rw [toList_enclose_nil '{' '}' rfl rfl]
      exact ⟨'{', _, rfl, by decide, by decide⟩
    | cons part parts =>
      rw [toList_enclose_cons '{' '}' rfl rfl]
      exact ⟨'{', _, rfl, by decide, by decide⟩

theorem skipSpace_newline_prettyAt (depth : Nat) (v : Value) (cs : List Char) :
    skipSpace ((newline depth).toList ++ ((v.prettyAt depth).toList ++ cs)) =
      (v.prettyAt depth).toList ++ cs := by
  obtain ⟨c, text, htext, hspace, -⟩ := exists_prettyAt_eq_cons depth v
  rw [skipSpace_newline, htext, List.cons_append, skipSpace_cons hspace]

theorem readList_of_not_close {c : Char} (hclose : c ≠ ']') {cs text : List Char}
    (h : skipSpace cs = c :: text) :
    readList read cs = readItem read (readItems read (c :: text).length) (c :: text) := by
  rw [readList, h]
  split
  · rename_i heq
    cases heq
  · rename_i heq
    exact absurd (List.cons.inj heq).1 hclose
  · rfl

theorem readItems_of_not_close {c : Char} (hclose : c ≠ ']') {cs text : List Char}
    (h : skipSpace cs = c :: text) (bound : Nat) :
    readItems read (bound + 1) (',' :: cs) = readItem read (readItems read bound) (c :: text) := by
  have hcomma : skipSpace (',' :: cs) = ',' :: cs := skipSpace_cons (by decide) cs
  simp [readItems, hcomma, h, hclose]

theorem readItem_of_readsBack {v : Value} (h : ReadsBack read depth v) {cs : List Char} (hcs : Ends cs)
    {items : List Node} {rest : Rest} {after : List Char → Node × Rest}
    (hafter : after cs = (.list items none, rest)) :
    readItem read after ((v.prettyAt depth).toList ++ cs) = (.list (v.toNode :: items) none, rest) := by
  rw [readItem, h cs hcs]
  dsimp only
  rw [hafter, Node.consItem]

/-- The items after the first are read back. -/
theorem readItems_following (h : ∀ v ∈ items, ReadsBack read (depth + 1) v) {bound : Nat}
    (hbound : items.length < bound) (cs : List Char) :
    readItems read bound (following ']' depth (prettyItems (depth + 1) items) ++ cs) =
      (.list (toNodes items) none, some cs) := by
  induction items generalizing bound with
  | nil =>
    obtain ⟨bound, rfl⟩ : ∃ k, bound = k + 1 := ⟨bound - 1, by omega⟩
    rw [prettyItems, following_nil, List.append_assoc, readItems, skipSpace_newline,
      List.singleton_append, skipSpace_cons (by decide)]
    rfl
  | cons v items ih =>
    rw [List.length_cons] at hbound
    obtain ⟨bound, rfl⟩ : ∃ k, bound = k + 1 := ⟨bound - 1, by omega⟩
    obtain ⟨c, text, htext, hspace, hclose⟩ := exists_prettyAt_eq_cons (depth + 1) v
    have hlen : items.length < bound := by omega
    have hrest := ih (fun w hw => h w (List.mem_cons_of_mem _ hw)) hlen
    have hitem := readItem_of_readsBack (h v List.mem_cons_self) (ends_following ']' depth _ cs) hrest
    have hskip := skipSpace_newline_prettyAt (depth + 1) v
      (following ']' depth (prettyItems (depth + 1) items) ++ cs)
    rw [htext, List.cons_append] at hskip hitem
    rw [prettyItems, following_cons, List.cons_append, List.append_assoc, List.append_assoc, htext,
      List.cons_append, readItems_of_not_close hclose hskip, hitem, toNodes]

/-- A list is read back after its opening bracket. -/
theorem readList_enclose (h : ∀ v ∈ items, ReadsBack read (depth + 1) v) (cs : List Char) :
    ∃ text, ((Value.list items).prettyAt depth).toList = '[' :: text ∧
      readList read (text ++ cs) = ((Value.list items).toNode, some cs) := by
  rw [prettyAt, toNode]
  cases items with
  | nil =>
    refine ⟨[']'], by rw [prettyItems, toList_enclose_nil '[' ']' rfl rfl], ?_⟩
    rw [readList, List.singleton_append, skipSpace_cons (by decide)]
    rfl
  | cons v items =>
    refine ⟨_, by rw [prettyItems, toList_enclose_cons '[' ']' rfl rfl], ?_⟩
    obtain ⟨c, text, htext, hspace, hclose⟩ := exists_prettyAt_eq_cons (depth + 1) v
    have hskip := skipSpace_newline_prettyAt (depth + 1) v
      (following ']' depth (prettyItems (depth + 1) items) ++ cs)
    have hbound : items.length <
        (c :: (text ++ (following ']' depth (prettyItems (depth + 1) items) ++ cs))).length := by
      have := length_lt_following ']' depth (prettyItems (depth + 1) items)
      have : (prettyItems (depth + 1) items).length = items.length := length_prettyItems _ _
      simp only [List.length_cons, List.length_append]
      omega
    have hrest := readItems_following (fun w hw => h w (List.mem_cons_of_mem _ hw)) hbound cs
    have hitem := readItem_of_readsBack (h v List.mem_cons_self) (ends_following ']' depth _ cs) hrest
    rw [htext, List.cons_append] at hskip hitem
    rw [List.append_assoc, List.append_assoc, htext, List.cons_append,
      readList_of_not_close hclose hskip, hitem, toNodes]

end List

section Object

variable {depth : Nat} {members : List (String × Value)}

/-- The text of a member after the quote that opens its key. -/
def keyed (depth : Nat) (key : String) (v : Value) : List Char :=
  key.toList.flatMap escapeChar ++ '"' :: ':' :: ' ' :: (v.prettyAt depth).toList

theorem toList_member (depth : Nat) (key : String) (v : Value) :
    (quote key ++ ": " ++ v.prettyAt depth).toList = '"' :: keyed depth key v := by
  have hcolon : ": ".toList = [':', ' '] := rfl
  simp [toList_quote, keyed, hcolon]

theorem readMember_of_readsBack (key : String) {levels : Nat} {v : Value}
    (h : ReadsBack (Node.readWithin levels) depth v) {cs : List Char} (hcs : Ends cs)
    {members : List (String × Node)} {rest : Rest} {after : List Char → Node × Rest}
    (hafter : after cs = (.object members none, rest)) :
    readMember (Node.readWithin levels) after (keyed depth key v ++ cs) =
      (.object ((key, v.toNode) :: members) none, rest) := by
  have hkey := readString_quote key (':' :: ' ' :: ((v.prettyAt depth).toList ++ cs))
  have htext : keyed depth key v ++ cs =
      key.toList.flatMap escapeChar ++ '"' :: ':' :: ' ' :: ((v.prettyAt depth).toList ++ cs) := by
    simp [keyed]
  have hcolon : skipSpace (':' :: ' ' :: ((v.prettyAt depth).toList ++ cs)) =
      ':' :: ' ' :: ((v.prettyAt depth).toList ++ cs) := skipSpace_cons (by decide) _
  have hblank : skipSpace (' ' :: ((v.prettyAt depth).toList ++ cs)) =
      skipSpace ((v.prettyAt depth).toList ++ cs) := rfl
  have hread := (readWithin_skipSpace levels hblank).trans (h cs hcs)
  rw [htext, readMember, hkey]
  simp [hcolon, hread, hafter, Node.consMember]

theorem skipSpace_newline_quote (depth : Nat) (cs : List Char) :
    skipSpace ((newline depth).toList ++ '"' :: cs) = '"' :: cs := by
  rw [skipSpace_newline, skipSpace_cons (by decide)]

/-- The members after the first are read back. -/
theorem readMembers_following {levels : Nat}
    (h : ∀ p ∈ members, ReadsBack (Node.readWithin levels) (depth + 1) p.2) {bound : Nat}
    (hbound : members.length < bound) (cs : List Char) :
    readMembers (Node.readWithin levels) bound
        (following '}' depth (prettyMembers (depth + 1) members) ++ cs) =
      (.object (toMembers members) none, some cs) := by
  induction members generalizing bound with
  | nil =>
    obtain ⟨bound, rfl⟩ : ∃ k, bound = k + 1 := ⟨bound - 1, by omega⟩
    rw [prettyMembers, following_nil, List.append_assoc, readMembers, skipSpace_newline,
      List.singleton_append, skipSpace_cons (by decide)]
    rfl
  | cons member members ih =>
    obtain ⟨key, v⟩ := member
    rw [List.length_cons] at hbound
    obtain ⟨bound, rfl⟩ : ∃ k, bound = k + 1 := ⟨bound - 1, by omega⟩
    have hlen : members.length < bound := by omega
    have hrest := ih (fun p hp => h p (List.mem_cons_of_mem _ hp)) hlen
    have hmember := readMember_of_readsBack key (h _ List.mem_cons_self)
      (ends_following '}' depth _ cs) hrest
    have hskip := skipSpace_newline_quote (depth + 1)
      (keyed (depth + 1) key v ++ (following '}' depth (prettyMembers (depth + 1) members) ++ cs))
    rw [prettyMembers, following_cons, List.cons_append, List.append_assoc, List.append_assoc,
      toList_member, List.cons_append, readMembers, skipSpace_cons (by decide), toMembers, ← hmember]
    simp [hskip]

/-- An object is read back after its opening brace. -/
theorem readObject_enclose {levels : Nat}
    (h : ∀ p ∈ members, ReadsBack (Node.readWithin levels) (depth + 1) p.2) (cs : List Char) :
    ∃ text, ((Value.object members).prettyAt depth).toList = '{' :: text ∧
      readObject (Node.readWithin levels) (text ++ cs) = ((Value.object members).toNode, some cs) := by
  rw [prettyAt, toNode]
  cases members with
  | nil =>
    refine ⟨['}'], by rw [prettyMembers, toList_enclose_nil '{' '}' rfl rfl], ?_⟩
    rw [readObject, List.singleton_append, skipSpace_cons (by decide)]
    rfl
  | cons member members =>
    obtain ⟨key, v⟩ := member
    refine ⟨_, by rw [prettyMembers, toList_enclose_cons '{' '}' rfl rfl], ?_⟩
    have hskip := skipSpace_newline_quote (depth + 1)
      (keyed (depth + 1) key v ++ (following '}' depth (prettyMembers (depth + 1) members) ++ cs))
    have hbound : members.length < (keyed (depth + 1) key v ++
        (following '}' depth (prettyMembers (depth + 1) members) ++ cs)).length := by
      have hparts := length_lt_following '}' depth (prettyMembers (depth + 1) members)
      rw [length_prettyMembers] at hparts
      simp only [List.length_append]
      omega
    have hrest := readMembers_following (fun p hp => h p (List.mem_cons_of_mem _ hp)) hbound cs
    have hmember := readMember_of_readsBack key (h _ List.mem_cons_self)
      (ends_following '}' depth _ cs) hrest
    rw [List.append_assoc, List.append_assoc, toList_member, List.cons_append, readObject, hskip,
      toMembers, ← hmember]
    rfl

end Object

/-! ## Values -/

/-- A value is read back wherever it is written. -/
theorem readWithin_prettyAt {levels : Nat} {v : Value} (h : v.Readable levels) (depth : Nat) :
    ReadsBack (Node.readWithin levels) depth v := by
  induction h generalizing depth with
  | null =>
    intro cs _
    have htext : (Value.null.prettyAt depth).toList = ['n', 'u', 'l', 'l'] := by simp [prettyAt]
    rw [htext, List.cons_append, Node.readWithin, skipSpace_cons (by decide)]
    rfl
  | bool b =>
    intro cs _
    cases b with
    | true =>
      have htext : ((Value.bool true).prettyAt depth).toList = ['t', 'r', 'u', 'e'] := by simp [prettyAt]
      rw [htext, List.cons_append, Node.readWithin, skipSpace_cons (by decide)]
      rfl
    | false =>
      have htext : ((Value.bool false).prettyAt depth).toList = ['f', 'a', 'l', 's', 'e'] := by
        simp [prettyAt]
      rw [htext, List.cons_append, Node.readWithin, skipSpace_cons (by decide)]
      rfl
  | @nat _ n hn =>
    intro cs hcs
    obtain ⟨d, ds, hd, hdigit⟩ := exists_toDigits_eq_cons n
    have hread := Number.read_toDigits hn hcs
    rw [hd, List.cons_append] at hread
    rw [prettyAt, String.toList_ofList, hd, List.cons_append, readWithin_of_isDigit hdigit, hread]
    rfl
  | string s =>
    intro cs _
    have hread := readString_quote s cs
    rw [prettyAt, toList_quote, List.cons_append, Node.readWithin, skipSpace_cons (by decide),
      List.append_assoc, List.singleton_append]
    show ofResult .string _ = _
    rw [hread]
    rfl
  | list _ ih =>
    intro cs _
    obtain ⟨text, htext, hread⟩ := readList_enclose (fun v hv => ih v hv (depth + 1)) cs
    rw [htext, List.cons_append, Node.readWithin, skipSpace_cons (by decide)]
    exact hread
  | object _ ih =>
    intro cs _
    obtain ⟨text, htext, hread⟩ := readObject_enclose (fun p hp => ih p hp (depth + 1)) cs
    rw [htext, List.cons_append, Node.readWithin, skipSpace_cons (by decide)]
    exact hread

end Subtyping.Json
