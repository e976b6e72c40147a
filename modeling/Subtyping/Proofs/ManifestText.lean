import Subtyping.Manifest.Encode
import Subtyping.Manifest.Load
import Subtyping.Proofs.JsonText

/-!
# Written manifests are read back

A manifest that is written as the text of a universe file is read back from it as it was
(`Manifest.read_toText`). Each record has an encoder and a decoder; a decoder fits an encoder
(`Json.Decoder.Fits`) if it gives back what was encoded, and it fits for lists and absent values where
it fits for what they hold. So a manifest is read back from every text that is read as its value
(`Manifest.read_of_value`), and the printed one is.
-/

namespace Subtyping

open Json Json.Value

namespace Json

/-! ## Whole texts -/

mutual

/-- What is read from a written value has no fault. -/
theorem fault?_toNode : ∀ v : Value, v.toNode.fault? = none
  | .null => by rw [toNode, Node.fault?] <;> simp
  | .bool b => by rw [toNode, Node.fault?] <;> simp
  | .nat n => by rw [toNode, Node.fault?] <;> simp
  | .string s => by rw [toNode, Node.fault?] <;> simp
  | .list items => by rw [toNode, Node.fault?, itemFault?_toNodes items, Option.or_none]
  | .object members => by rw [toNode, Node.fault?, memberFault?_toMembers members, Option.or_none]

theorem itemFault?_toNodes : ∀ items : List Value, Node.itemFault? (toNodes items) = none
  | [] => by rw [toNodes, Node.itemFault?]
  | item :: items => by
    rw [toNodes, Node.itemFault?, fault?_toNode item, itemFault?_toNodes items, Option.or_none]

theorem memberFault?_toMembers :
    ∀ members : List (String × Value), Node.memberFault? (toMembers members) = none
  | [] => by rw [toMembers, Node.memberFault?]
  | (key, value) :: members => by
    rw [toMembers, Node.memberFault?, fault?_toNode value, memberFault?_toMembers members,
      Option.or_none]

end

/-- A text that holds one value, with nothing but space after it, is decoded as the value is. -/
theorem decode_of_read {α : Type} {node : Node} {text : String} {rest : List Char}
    (hread : Node.read text.toList = (node, some rest)) (hrest : skipSpace rest = [])
    (decoder : Decoder α) : decode decoder text = decoder node := by
  rw [decode, hread]
  simp only [Option.map_some, hrest]
  exact bind_pure _

theorem read_pretty {v : Value} (h : v.Readable maxDepth) :
    Node.read v.pretty.toList = (v.toNode, some []) := by
  have := readWithin_prettyAt h 0 [] .nil
  rwa [List.append_nil] at this

namespace Decoder

variable {α : Type} {decode : Decoder α} {encode : α → Value}

/-- The decoder gives back a value that was encoded. -/
def Fits (decode : Decoder α) (encode : α → Value) (a : α) : Prop :=
  decode (encode a).toNode = .ok a

theorem fits_string (s : String) : Fits string .string s := by
  rw [Fits, toNode, string]
  rfl

theorem fits_bool (b : Bool) : Fits bool .bool b := by
  rw [Fits, toNode, bool]
  rfl

theorem fits_word {n : Nat} (h : n < Nat.pow 2 32) : Fits word .nat n := by
  rw [Fits, toNode, word, if_pos h]
  rfl

theorem fits_list {as : List α} (h : ∀ a ∈ as, Fits decode encode a) :
    Fits (list decode) (fun as => .list (as.map encode)) as := by
  rw [Fits, toNode, list, toNodes_eq_map, List.map_map]
  induction as with
  | nil => rfl
  | cons a as ih =>
    rw [List.map_cons, items, ih fun b hb => h b (List.mem_cons_of_mem a hb), Function.comp_apply,
      h a List.mem_cons_self]
    rfl

theorem fits_optional {o : Option α} (hnull : ∀ a, (encode a).toNode ≠ .null)
    (h : ∀ a ∈ o, Fits decode encode a) : Fits (optional decode) (.ofOption encode) o := by
  cases o with
  | none =>
    rw [Fits, Value.ofOption, toNode, optional]
    rfl
  | some a =>
    rw [Fits, Value.ofOption, optional, h a rfl]
    · rfl
    · exact hnull a

theorem fill_toNode {a : α} (h : Fits decode encode a) (name : String) :
    fill name none decode (encode a).toNode = .ok (some a) := by
  rw [fill, h]
  rfl

/-- A record that is written as an object is read member by member. -/
theorem record_object {σ : Type} (expected : String)
    (step : σ → String → Node → Except DecodeError σ) (draft : σ) (finish : σ → Except DecodeError α)
    (fields : FieldsM α) (ms : List (String × Value)) :
    record expected step draft finish fields (Value.object ms).toNode =
      members step none draft (toMembers ms) >>= finish := by
  rw [toNode, record]

end Decoder

end Json

namespace Manifest

open Json.Decoder (Fits members fill demand fill_toNode record_object fits_string fits_bool fits_word
  fits_list fits_optional)

/-! ## Records -/

theorem fits_kind (k : Kind) : Fits kindDecoder (fun k => .string k.keyword) k := by
  cases k <;> rfl

theorem fits_strings (texts : List String) :
    Fits (Decoder.list Decoder.string) (fun texts => .list (texts.map .string)) texts :=
  fits_list fun s _ => fits_string s

theorem fits_text? (text : Option String) :
    Fits (Decoder.optional Decoder.string) (.ofOption .string) text :=
  fits_optional (fun s => by simp [toNode]) fun s _ => fits_string s

theorem Param.fits (p : Param) : Fits Param.decoder Param.toValue p := by
  have hfault := fault?_toNode p.toValue
  cases p with
  | plain name =>
    rw [Param.toValue, toNode] at hfault
    rw [Fits, Param.toValue, toNode, Param.decoder, hfault]
    rfl
  | bounded name constraints =>
    have hname := fill_toNode (fits_string name) "name"
    have hconstraints := fill_toNode (fits_strings constraints) "constraints"
    rw [Param.toValue, toNode] at hfault
    rw [Fits, Param.toValue, toNode, Param.decoder, hfault]
    simp only [toMembers, Param.ofMembers, members, hname, hconstraints, demand, bind, Except.bind, pure,
      Except.pure, Option.getD_some]

theorem Decl.fits (d : Decl) : Fits Decl.decoder Decl.toValue d := by
  have hname := fill_toNode (fits_string d.name) "name"
  have hkind := fill_toNode (fits_kind d.kind) "kind"
  have hparams := fill_toNode (fits_list fun p (_ : p ∈ d.params) => p.fits) "params"
  have hbase := fill_toNode (fits_text? d.base) "extends"
  have hinterfaces := fill_toNode (fits_strings d.interfaces) "implements"
  rw [Fits, Decl.toValue, Decl.decoder, record_object]
  simp only [toMembers, members, DeclDraft.step, DeclDraft.finish, hname, hkind, hparams, hbase,
    hinterfaces, demand, bind, Except.bind, pure, Except.pure, Option.getD_some]

theorem Query.fits (q : Query) : Fits Query.decoder Query.toValue q := by
  have hsource := fill_toNode (fits_string q.source) "source"
  have htarget := fill_toNode (fits_string q.target) "target"
  have hexpect := fill_toNode
    (fits_optional (o := q.expect) (fun b => by simp [toNode]) fun b _ => fits_bool b) "expect"
  have hsubstitution := fill_toNode (fits_text? q.substitution) "substitution"
  rw [Fits, Query.toValue, Query.decoder, record_object]
  simp only [toMembers, members, QueryDraft.step, QueryDraft.finish, hsource, htarget, hexpect,
    hsubstitution, demand, bind, Except.bind, pure, Except.pure, Option.getD_some]

theorem Options.fits {o : Options} (h : ∀ n ∈ o.maxDepth, n < Nat.pow 2 32) :
    Fits Options.decoder Options.toValue o := by
  have hdepth := fill_toNode
    (fits_optional (fun n => by simp [toNode]) fun n hn => fits_word (h n hn)) "maxDepth"
  rw [Fits, Options.toValue, Options.decoder, record_object]
  simp only [toMembers, members, Options.step, hdepth, bind, Except.bind, pure, Except.pure,
    Option.getD_some]

theorem fits {m : Manifest} (h : ∀ n ∈ m.options.maxDepth, n < Nat.pow 2 32) :
    Fits decoder toValue m := by
  have hdecls := fill_toNode (fits_list fun d (_ : d ∈ m.decls) => d.fits) "types"
  have hqueries := fill_toNode (fits_list fun q (_ : q ∈ m.queries) => q.fits) "queries"
  have hoptions := fill_toNode (Options.fits h) "options"
  rw [Fits, toValue, decoder, record_object]
  simp only [toMembers, members, Draft.step, Draft.finish, hdecls, hqueries, hoptions, bind, Except.bind,
    pure, Except.pure, Option.getD_some]

/-- A manifest is read back from every text that is read as its value, however the text is laid out. -/
theorem read_of_value {m : Manifest} (h : ∀ n ∈ m.options.maxDepth, n < Nat.pow 2 32) {text : String}
    {rest : List Char} (hread : Node.read text.toList = (m.toValue.toNode, some rest))
    (hrest : skipSpace rest = []) : read text = .ok m := by
  have htext : ofText text = .ok m := (decode_of_read hread hrest decoder).trans (fits h)
  rw [read, htext]
  rfl

/-! ## Nesting -/

theorem readable_ofOption {α : Type} {levels : Nat} {encode : α → Value} {o : Option α}
    (h : ∀ a ∈ o, (encode a).Readable levels) : (Value.ofOption encode o).Readable levels := by
  cases o with
  | none => exact .null
  | some a => exact h a rfl

theorem readable_map {α : Type} {levels : Nat} {encode : α → Value} {as : List α}
    (h : ∀ a ∈ as, (encode a).Readable levels) : (Value.list (as.map encode)).Readable (levels + 1) :=
  .list fun v hv => by
    obtain ⟨a, ha, rfl⟩ := List.mem_map.mp hv
    exact h a ha

theorem Param.readable (p : Param) (levels : Nat) : p.toValue.Readable (levels + 2) := by
  cases p with
  | plain name => exact .string name
  | bounded name constraints =>
    refine .object ?_
    simp only [List.forall_mem_cons]
    exact ⟨.string name, readable_map fun s _ => .string s, by simp⟩

theorem Decl.readable (d : Decl) (levels : Nat) : d.toValue.Readable (levels + 4) := by
  refine .object ?_
  simp only [List.forall_mem_cons]
  exact ⟨.string _, .string _, readable_map fun p _ => p.readable levels,
    readable_ofOption fun s _ => .string s, readable_map fun s _ => .string s, by simp⟩

theorem Query.readable (q : Query) (levels : Nat) : q.toValue.Readable (levels + 4) := by
  refine .object ?_
  simp only [List.forall_mem_cons]
  exact ⟨.string _, .string _, readable_ofOption fun b _ => .bool b,
    readable_ofOption fun s _ => .string s, by simp⟩

/-- A manifest nests no deeper than a text may. -/
theorem readable {m : Manifest} (h : ∀ n ∈ m.options.maxDepth, n < Nat.pow 2 32) :
    m.toValue.Readable maxDepth := by
  have hoptions : m.options.toValue.Readable (121 + 5) := by
    refine .object ?_
    simp only [List.forall_mem_cons]
    refine ⟨readable_ofOption fun n hn => .nat ((h n hn).trans (by decide)), by simp⟩
  show m.toValue.Readable (121 + 6)
  refine .object ?_
  simp only [List.forall_mem_cons]
  exact ⟨readable_map fun d _ => d.readable 121, readable_map fun q _ => q.readable 121, hoptions,
    by simp⟩

/-- A manifest is read back from its text. -/
theorem read_toText {m : Manifest} (h : ∀ n ∈ m.options.maxDepth, n < Nat.pow 2 32) :
    read m.toText = .ok m :=
  read_of_value h (read_pretty (readable h)) rfl

/-- Quotes, line ends and control characters in names, a parameter in each form, absent and empty
fields, and the largest depth. -/
theorem read_toText_of_escapes :
    let m : Manifest := {
      decls := [
        { name := "a\"b\\c", kind := .interfaceKind, params := [.plain "T\n", .bounded "" []] },
        { name := "\x00é", kind := .structKind, params := [.bounded "U" ["a<U>", "\x1f"]],
          base := some "", interfaces := ["/"] }]
      queries := [{ source := "\t", target := "𝔸", expect := some false }]
      options := { maxDepth := some 4294967295 } }
    (∀ n ∈ m.options.maxDepth, n < Nat.pow 2 32) ∧ read m.toText = .ok m := by
  intro m
  have hdepth : ∀ n ∈ m.options.maxDepth, n < Nat.pow 2 32 := by decide
  exact ⟨hdepth, read_toText hdepth⟩

end Manifest

end Subtyping
