import Subtyping.Json.Value
import Subtyping.Log.Record
import Subtyping.Text.Blank

/-!
# Log formats

A log is a sequence of lines, one for each record, as plain text or as JSON. The tree format is
written like text, for no record stands inside another.
-/

namespace Subtyping.Log

/-- How a log is written. -/
inductive Format where
  | text
  | tree
  | json
deriving DecidableEq, Repr

/-- The format of a name, in any case and with blanks around it; text if there is none. No
character beyond ASCII has one of these letters as its lower case. -/
def Format.ofName (name : String) : Format :=
  match (Text.trim name).toLower with
  | "tree" => tree
  | "json" => json
  | _ => text

def FieldValue.toValue : FieldValue → Json.Value
  | nat n => .nat n
  | bool b => .bool b
  | text s | plain s => .string s

/-- A record as a value; the message is the first of the fields. -/
def Record.toValue (r : Record) : Json.Value :=
  let message := r.message.toList.map fun m => ("message", Json.Value.string m)
  .object [
    ("level", .string r.level.name),
    ("fields", .object (message ++ r.fields.map fun (name, value) => (name, value.toValue))),
    ("target", .string r.target)]

/-- The line of a record. -/
def Format.write (format : Format) (r : Record) : String :=
  match format with
  | text | tree => r.line
  | json => r.toValue.compact

end Subtyping.Log
