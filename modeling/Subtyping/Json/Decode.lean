import Subtyping.Json.Reader

/-!
# Taking JSON values apart

Readers of records go through a node in the order of the text, so that of several things that are
wrong the first one is reported. A record is an object with known keys, each at most once, or a
list of its fields in order.
-/

namespace Subtyping.Json

/-- Why a text does not hold the record that is wanted. -/
inductive DecodeError where
  | fault (fault : Fault)
  | invalidType (found expected : String)
  | invalidValue (found expected : String)
  | invalidLength (length : Nat) (expected : String)
  | unknownField (name : String) (known : List String)
  | unknownVariant (name : String) (known : List String)
  | duplicateField (name : String)
  | missingField (name : String)
  | noVariant (record : String)
deriving DecidableEq, Repr

/-- The names that would have been right. -/
def alternatives (known : List String) : String :=
  match known.map fun name => "`" ++ name ++ "`" with
  | [] => "there are no fields"
  | [a] => "expected " ++ a
  | [a, b] => "expected " ++ a ++ " or " ++ b
  | names => "expected one of " ++ ", ".intercalate names

/-- The text of an error. -/
def DecodeError.message : DecodeError → String
  | fault f => f.message
  | invalidType found expected => s!"invalid type: {found}, expected {expected}"
  | invalidValue found expected => s!"invalid value: {found}, expected {expected}"
  | invalidLength length expected => s!"invalid length {length}, expected {expected}"
  | unknownField name known => s!"unknown field `{name}`, {alternatives known}"
  | unknownVariant name known => s!"unknown variant `{name}`, {alternatives known}"
  | duplicateField name => s!"duplicate field `{name}`"
  | missingField name => s!"missing field `{name}`"
  | noVariant record => s!"data did not match any variant of untagged enum {record}"

/-- A reader of one kind of value. -/
abbrev Decoder (α : Type) := Node → Except DecodeError α

namespace Decoder

variable {α : Type}

/-- The error for a node that is not of the kind that is wanted. -/
def mismatch (expected : String) : Decoder α
  | .broken fault => throw (.fault fault)
  | node => throw (.invalidType node.describe expected)

def string : Decoder String
  | .string s => return s
  | node => mismatch "a string" node

def bool : Decoder Bool
  | .bool b => return b
  | node => mismatch "a boolean" node

/-- A number of 32 bits. -/
def word : Decoder Nat
  | .number (.nat n) =>
    if n < Nat.pow 2 32 then
      return n
    else
      throw (.invalidValue (Node.describe (.number (.nat n))) "u32")
  | .number (.negSucc n) =>
    throw (.invalidValue (Node.describe (.number (.negSucc n))) "u32")
  | node => mismatch "u32" node

/-- A value or nothing. -/
def optional (decode : Decoder α) : Decoder (Option α)
  | .null => return none
  | node => some <$> decode node

/-- Reads items in order, then what is wrong after them. -/
def items (decode : Decoder α) (fault : Option Fault) : List Node → Except DecodeError (List α)
  | [] =>
    match fault with
    | some fault => throw (.fault fault)
    | none => return []
  | item :: rest => do
    let first ← decode item
    return first :: (← items decode fault rest)

def list (decode : Decoder α) : Decoder (List α)
  | .list nodes fault => items decode fault nodes
  | node => mismatch "a sequence" node

/-! ## Records -/

/-- Reads members in order into a draft, then what is wrong after them. -/
def members {σ : Type} (step : σ → String → Node → Except DecodeError σ) (fault : Option Fault)
    (draft : σ) : List (String × Node) → Except DecodeError σ
  | [] =>
    match fault with
    | some fault => throw (.fault fault)
    | none => return draft
  | (key, value) :: rest => do
    members step fault (← step draft key value) rest

/-- Fills a field of a draft, unless it is filled already. -/
def fill (name : String) (old : Option α) (decode : Decoder α) (node : Node) :
    Except DecodeError (Option α) := do
  if old.isSome then
    throw (.duplicateField name)
  some <$> decode node

/-- The value of a field that a record must have. -/
def demand (name : String) : Option α → Except DecodeError α
  | some a => return a
  | none => throw (.missingField name)

/-- The fields of a list that are left to read, and what is wrong after them. -/
structure Fields where
  items : List Node
  fault : Option Fault

/-- Reading the fields of a list, one after the other. -/
abbrev FieldsM := StateT Fields (Except DecodeError)

/-- Reads the next field, if there is one. -/
def nextField? (decode : Decoder α) : FieldsM (Option α) := do
  match ← get with
  | { items := item :: items, fault } =>
    set { items, fault : Fields }
    some <$> (decode item : Except DecodeError α)
  | { items := [], fault := some fault } => throw (.fault fault)
  | { items := [], fault := none } => return none

/-- Reads the next field, which must be there: `index` fields come before it. -/
def nextField (expected : String) (index : Nat) (decode : Decoder α) : FieldsM α := do
  let some a ← nextField? decode | throw (.invalidLength index expected)
  return a

/-- A list has ended with its last field. -/
def endFields : FieldsM Unit := do
  match ← get with
  | { items := [], fault := none } => return
  | { items := [], fault := some .endInList } => throw (.fault .endInList)
  | { items := .broken .trailingComma :: _, .. } => throw (.fault .trailingComma)
  | _ => throw (.fault .trailingText)

/-- A record, as an object or as a list of fields. -/
def record {σ : Type} (expected : String) (step : σ → String → Node → Except DecodeError σ)
    (draft : σ) (finish : σ → Except DecodeError α) (fields : FieldsM α) : Decoder α
  | .object nodes fault => do finish (← members step fault draft nodes)
  | .unkeyed _ => throw (.fault .keyNotString)
  | .list nodes fault => do
    let (a, rest) ← fields.run { items := nodes, fault }
    endFields.run' rest
    return a
  | node => mismatch expected node

/-- The value that a word stands for. -/
def ofKnown (ofWord : String → Option α) (known : List String) (word : String) :
    Except DecodeError α :=
  match ofWord word with
  | some a => .ok a
  | none => .error (.unknownVariant word known)

/-- A value out of a fixed choice: a word, or an object whose only key is the word and whose value
is null. -/
def choice (ofWord : String → Option α) (known : List String) : Decoder α
  | .string word => ofKnown ofWord known word
  | .object ((word, value) :: others) fault => do
    let a ← ofKnown ofWord known word
    match value with
    | .null => pure ()
    | node => mismatch "unit" node
    match others, fault with
    | [], none => return a
    | [], some .endInObject => throw (.fault .endInObject)
    | _, _ => throw (.fault .expectedValue)
  | .object [] (some fault) =>
    throw (.fault (if fault = .endInObject then .endInValue else fault))
  | .unkeyed first => mismatch "variant identifier" first
  | .broken fault => throw (.fault fault)
  | _ => throw (.fault .expectedValue)

end Decoder

/-- Reads a text that holds one value and nothing else. -/
def decode {α : Type} (decoder : Decoder α) (text : String) : Except DecodeError α := do
  let (node, rest) := Node.read text.toList
  let a ← decoder node
  match rest.map skipSpace with
  | none | some [] => return a
  | some (_ :: _) => throw (.fault .trailingText)

end Subtyping.Json
