import Subtyping.Json.Node

/-!
# Reading JSON text

`Node.read` reads one value and tells what is left of the text after it; there is nothing left if
the value could not be read to its end. Lists and objects nest at most `maxDepth` deep.
-/

namespace Subtyping.Json

/-- A text, or nothing if reading stopped. -/
abbrev Rest := Option (List Char)

/-- A reader of one value. -/
abbrev ReadNode := List Char → Node × Rest

/-- How deep lists and objects may nest. -/
def maxDepth : Nat := 127

/-- Blanks of JSON: space, tab and the two line ends. -/
def isSpace (c : Char) : Bool :=
  c == ' ' || c == '\t' || c == '\n' || c == '\r'

def skipSpace (cs : List Char) : List Char :=
  cs.dropWhile isSpace

/-! ## Words and strings -/

/-- Reads the rest of a word. -/
def readWord (node : Node) : (word text : List Char) → Node × Rest
  | [], cs => (node, some cs)
  | _ :: _, [] => (.broken .endInValue, none)
  | w :: ws, c :: cs => if w = c then readWord node ws cs else (.broken .expectedWord, none)

/-- The value of a digit in base sixteen. -/
def hexValue? (c : Char) : Option Nat :=
  if c.isDigit then some (c.toNat - '0'.toNat)
  else if 'a' ≤ c ∧ c ≤ 'f' then some (c.toNat - 'a'.toNat + 10)
  else if 'A' ≤ c ∧ c ≤ 'F' then some (c.toNat - 'A'.toNat + 10)
  else none

/-- Reads four digits in base sixteen; a text of fewer than four bytes has ended. -/
def readHex (cs : List Char) : Except Fault (Nat × List Char) :=
  match cs with
  | a :: b :: c :: d :: rest =>
    match hexValue? a, hexValue? b, hexValue? c, hexValue? d with
    | some a, some b, some c, some d => .ok (((a * 16 + b) * 16 + c) * 16 + d, rest)
    | _, _, _, _ => .error .invalidEscape
  | _ =>
    if cs.foldl (fun size c => size + c.utf8Size) 0 < 4 then .error .endInString else .error .invalidEscape

/-- The low half of a surrogate pair, which must follow the high half. -/
def readLowSurrogate : List Char → Except Fault (Nat × List Char)
  | [] => .error .endInString
  | '\\' :: [] => .error .endInString
  | '\\' :: 'u' :: cs => do
    let (low, cs) ← readHex cs
    if low < 0xDC00 ∨ 0xDFFF < low then
      throw .loneSurrogate
    return (low - 0xDC00, cs)
  | _ => .error .cutSurrogate

/-- Reads what follows a backslash. -/
def readEscape : List Char → Except Fault (Char × List Char)
  | [] => .error .endInString
  | 'u' :: cs => do
    let (code, cs) ← readHex cs
    if 0xDC00 ≤ code ∧ code ≤ 0xDFFF then
      throw .loneSurrogate
    if 0xD800 ≤ code ∧ code < 0xDC00 then
      let (low, cs) ← readLowSurrogate cs
      return (Char.ofNat (0x10000 + (code - 0xD800) * 0x400 + low), cs)
    return (Char.ofNat code, cs)
  | c :: cs =>
    match c with
    | '"' | '\\' | '/' => .ok (c, cs)
    | 'b' => .ok ('\x08', cs)
    | 'f' => .ok ('\x0c', cs)
    | 'n' => .ok ('\n', cs)
    | 'r' => .ok ('\r', cs)
    | 't' => .ok ('\t', cs)
    | _ => .error .invalidEscape

/-- Reads a string after its opening quote; `before` is what was read of it, the last character
first, and `bound` is at least the length of the text. -/
def readString (before : List Char) : (bound : Nat) → List Char →
    Except Fault (String × List Char)
  | 0, _ | _, [] => .error .endInString
  | bound + 1, c :: cs =>
    if c = '"' then
      .ok (String.ofList before.reverse, cs)
    else if c = '\\' then do
      let (c, cs) ← readEscape cs
      readString (c :: before) bound cs
    else if c.toNat < 0x20 then
      .error .controlCharacter
    else
      readString (c :: before) bound cs

/-! ## Lists -/

/-- Puts an item before the rest of a list. -/
def Node.consItem (others item : Node) : Node :=
  match others with
  | .list items fault => .list (item :: items) fault
  | node => node

/-- Reads an item and what follows it. -/
def readItem (read : ReadNode) (after : List Char → Node × Rest) (cs : List Char) : Node × Rest :=
  match read cs with
  | (item, none) => (.list [item] none, none)
  | (item, some cs) =>
    let (others, rest) := after cs
    (others.consItem item, rest)

/-- Reads the items after the first; `bound` is at least the length of the text. -/
def readItems (read : ReadNode) : (bound : Nat) → List Char → Node × Rest
  | 0, _ => (.list [] (some .endInList), none)
  | bound + 1, cs =>
    match skipSpace cs with
    | [] => (.list [] (some .endInList), none)
    | ']' :: cs => (.list [] none, some cs)
    | ',' :: cs =>
      match skipSpace cs with
      | [] => (.list [.broken .endInValue] none, none)
      | ']' :: _ => (.list [.broken .trailingComma] none, none)
      | cs => readItem read (readItems read bound) cs
    | _ => (.list [] (some .expectedListEnd), none)

/-- Reads a list after its opening bracket. -/
def readList (read : ReadNode) (cs : List Char) : Node × Rest :=
  match skipSpace cs with
  | [] => (.list [] (some .endInList), none)
  | ']' :: cs => (.list [] none, some cs)
  | cs => readItem read (readItems read cs.length) cs

/-! ## Objects -/

/-- Puts a member before the rest of an object. -/
def Node.consMember (others : Node) (key : String) (value : Node) : Node :=
  match others with
  | .object members fault => .object ((key, value) :: members) fault
  | node => node

/-- Reads a member after the quote that opens its key, and what follows it. -/
def readMember (read : ReadNode) (after : List Char → Node × Rest) (cs : List Char) :
    Node × Rest :=
  match readString [] cs.length cs with
  | .error fault => (.object [] (some fault), none)
  | .ok (key, cs) =>
    match skipSpace cs with
    | [] => (.object [(key, .broken .endInObject)] none, none)
    | ':' :: cs =>
      match read cs with
      | (value, none) => (.object [(key, value)] none, none)
      | (value, some cs) =>
        let (others, rest) := after cs
        (others.consMember key value, rest)
    | _ => (.object [(key, .broken .expectedColon)] none, none)

/-- Reads the members after the first; `bound` is at least the length of the text. -/
def readMembers (read : ReadNode) : (bound : Nat) → List Char → Node × Rest
  | 0, _ => (.object [] (some .endInObject), none)
  | bound + 1, cs =>
    match skipSpace cs with
    | [] => (.object [] (some .endInObject), none)
    | '}' :: cs => (.object [] none, some cs)
    | ',' :: cs =>
      match skipSpace cs with
      | [] => (.object [] (some .endInValue), none)
      | '"' :: cs => readMember read (readMembers read bound) cs
      | '}' :: _ => (.object [] (some .trailingComma), none)
      | _ => (.object [] (some .keyNotString), none)
    | _ => (.object [] (some .expectedObjectEnd), none)

/-- Reads an object after its opening brace. -/
def readObject (read : ReadNode) (cs : List Char) : Node × Rest :=
  match skipSpace cs with
  | [] => (.object [] (some .endInObject), none)
  | '}' :: cs => (.object [] none, some cs)
  | '"' :: cs => readMember read (readMembers read cs.length) cs
  | cs => (.unkeyed (read cs).1, none)

/-! ## Values -/

/-- A value that was read whole, or the fault that it has instead. -/
def ofResult {α : Type} (f : α → Node) : Except Fault (α × List Char) → Node × Rest
  | .ok (a, cs) => (f a, some cs)
  | .error fault => (.broken fault, none)

/-- Reads a value whose lists and objects nest at most `levels` deep. -/
def Node.readWithin (levels : Nat) (cs : List Char) : Node × Rest :=
  match skipSpace cs with
  | [] => (.broken .endInValue, none)
  | c :: cs =>
    match c with
    | 'n' => readWord .null ['u', 'l', 'l'] cs
    | 't' => readWord (.bool true) ['r', 'u', 'e'] cs
    | 'f' => readWord (.bool false) ['a', 'l', 's', 'e'] cs
    | '"' => ofResult .string (readString [] cs.length cs)
    | '[' =>
      match levels with
      | 0 => (.broken .tooDeep, none)
      | levels + 1 => readList (readWithin levels) cs
    | '{' =>
      match levels with
      | 0 => (.broken .tooDeep, none)
      | levels + 1 => readObject (readWithin levels) cs
    | _ =>
      if c = '-' ∨ c.isDigit then
        ofResult .number (Number.read (c :: cs))
      else
        (.broken .expectedValue, none)

/-- Reads a value. -/
def Node.read (cs : List Char) : Node × Rest :=
  Node.readWithin maxDepth cs

end Subtyping.Json
