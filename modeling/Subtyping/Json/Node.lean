import Subtyping.Json.Number
import Subtyping.Text.Quoted

/-!
# What a JSON text holds

A `Node` is a value as far as it could be read. A text that stops being JSON somewhere still has
values before that place, and whoever takes the node apart from left to right meets the fault
exactly where the text has it: as a `broken` value, or at the end of a list or an object.
-/

namespace Subtyping.Json

/-- A value, as far as it could be read. -/
inductive Node where
  | null
  | bool (b : Bool)
  | number (n : Number)
  | string (s : String)
  /-- A list, and what is wrong after its last item, if it is not closed there. -/
  | list (items : List Node) (fault : Option Fault)
  /-- An object with its members in order, and what is wrong after the last, if it is not closed
  there. -/
  | object (members : List (String × Node)) (fault : Option Fault)
  /-- An object that begins with something other than a string. -/
  | unkeyed (first : Node)
  /-- No value at all. -/
  | broken (fault : Fault)
deriving Repr

namespace Node

/-- What kind of value a node is, for a reader who expected another. -/
def describe : Node → String
  | null => "null"
  | bool b => s!"boolean `{b}`"
  | number (.nat n) => s!"integer `{n}`"
  | number (.negSucc n) => s!"integer `-{n + 1}`"
  | number (.double d) => s!"floating point `{d.text}`"
  | string s => "string " ++ Text.quoted s
  | list _ _ => "sequence"
  | object _ _ | unkeyed _ => "map"
  | broken _ => ""

mutual

/-- The first fault inside a value, in the order of the text. -/
def fault? : Node → Option Fault
  | list items fault => (itemFault? items).or fault
  | object members fault => (memberFault? members).or fault
  | unkeyed _ => some .keyNotString
  | broken fault => some fault
  | _ => none

def itemFault? : List Node → Option Fault
  | [] => none
  | item :: items => (fault? item).or (itemFault? items)

def memberFault? : List (String × Node) → Option Fault
  | [] => none
  | (_, value) :: members => (fault? value).or (memberFault? members)

end

end Node

end Subtyping.Json
