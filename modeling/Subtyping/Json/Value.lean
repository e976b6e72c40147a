
/-!
# Writing JSON text

A `Value` is what reports and files are written as. `Value.pretty` puts each item and each member
on its own line, two blanks deeper than what holds it; `Value.compact` writes one line.
-/

namespace Subtyping.Json

/-- A value to be written. Members are written in order. -/
inductive Value where
  | null
  | bool (b : Bool)
  | nat (n : Nat)
  | string (s : String)
  | list (items : List Value)
  | object (members : List (String × Value))
deriving Repr

namespace Value

def ofOption {α : Type} (f : α → Value) : Option α → Value
  | some a => f a
  | none => .null

/-- A character as it stands in a string: quotes, backslashes and control characters are
escaped. -/
def escapeChar (c : Char) : List Char :=
  match c with
  | '"' => ['\\', '"']
  | '\\' => ['\\', '\\']
  | '\x08' => ['\\', 'b']
  | '\x0c' => ['\\', 'f']
  | '\n' => ['\\', 'n']
  | '\r' => ['\\', 'r']
  | '\t' => ['\\', 't']
  | _ =>
    if c.toNat < 0x20 then
      ['\\', 'u', '0', '0', Nat.digitChar (c.toNat / 16), Nat.digitChar (c.toNat % 16)]
    else
      [c]

/-- A string between quotes. -/
def quote (s : String) : String :=
  String.ofList ('"' :: s.toList.flatMap escapeChar ++ ['"'])

/-- A line end, and blanks up to a depth. -/
def newline (depth : Nat) : String :=
  "\n" ++ String.ofList (List.replicate (2 * depth) ' ')

/-- Parts between two brackets, each on a line of its own; without parts the brackets stand
together. -/
def enclose (depth : Nat) (left right : String) : List String → String
  | [] => left ++ right
  | parts =>
    left ++ ",".intercalate (parts.map (newline (depth + 1) ++ ·)) ++ newline depth ++ right

mutual

/-- The text of a value at some depth. -/
def prettyAt (depth : Nat) : Value → String
  | null => "null"
  | bool b => if b then "true" else "false"
  | nat n => String.ofList (Nat.toDigits 10 n)
  | string s => quote s
  | list items => enclose depth "[" "]" (prettyItems (depth + 1) items)
  | object members => enclose depth "\x7b" "\x7d" (prettyMembers (depth + 1) members)

def prettyItems (depth : Nat) : List Value → List String
  | [] => []
  | item :: items => prettyAt depth item :: prettyItems depth items

def prettyMembers (depth : Nat) : List (String × Value) → List String
  | [] => []
  | (key, value) :: members =>
    (quote key ++ ": " ++ prettyAt depth value) :: prettyMembers depth members

end

/-- The text of a value. -/
def pretty (v : Value) : String :=
  v.prettyAt 0

mutual

/-- The text of a value on one line, without blanks. -/
def compact : Value → String
  | null => "null"
  | bool b => if b then "true" else "false"
  | nat n => String.ofList (Nat.toDigits 10 n)
  | string s => quote s
  | list items => "[" ++ ",".intercalate (compactItems items) ++ "]"
  | object members => "\x7b" ++ ",".intercalate (compactMembers members) ++ "\x7d"

def compactItems : List Value → List String
  | [] => []
  | item :: items => compact item :: compactItems items

def compactMembers : List (String × Value) → List String
  | [] => []
  | (key, value) :: members => (quote key ++ ":" ++ compact value) :: compactMembers members

end

end Value

end Subtyping.Json
