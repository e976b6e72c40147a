import Subtyping.Text.Blank

/-!
# Tokens of type expressions

Text is cut into names, as long as possible, and single characters; blanks separate tokens and
are dropped. A token knows its offset in the text, counted in UTF-8 bytes.
-/

namespace Subtyping.TypeExpr

/-- A character that can begin a name. -/
def startsName (c : Char) : Bool :=
  c.isAlpha || c == '_'

/-- A character that can stand inside a name. -/
def continuesName (c : Char) : Bool :=
  c.isAlphanum || c == '_' || c == '.'

/-- A piece of a type expression. -/
inductive Token where
  | name (offset : Nat) (first : Char) (rest : List Char)
  | mark (offset : Nat) (char : Char)
deriving DecidableEq, Repr

namespace Token

def offset : Token → Nat
  | name offset _ _ => offset
  | mark offset _ => offset

/-- The first character of a token. -/
def char : Token → Char
  | name _ first _ => first
  | mark _ char => char

/-- The name being read, if any: where it began, its first character and the others, the last one
first. -/
abbrev Pending := Option (Nat × Char × List Char)

/-- The token of a name that has ended. -/
def ofPending : Pending → List Token
  | some (offset, first, rest) => [.name offset first rest.reverse]
  | none => []

/-- The tokens of a text that begins at an offset, after the name that is being read. -/
def scan (offset : Nat) (pending : Pending) : List Char → List Token
  | [] => ofPending pending
  | c :: cs =>
    let next := offset + c.utf8Size
    match pending, continuesName c with
    | some (start, first, rest), true => scan next (some (start, first, c :: rest)) cs
    | pending, _ =>
      ofPending pending ++
        if Text.isBlank c then scan next none cs
        else if startsName c then scan next (some (offset, c, [])) cs
        else .mark offset c :: scan next none cs

/-- The tokens of a text. -/
def ofText (s : String) : List Token :=
  scan 0 none s.toList

end Token

end Subtyping.TypeExpr
