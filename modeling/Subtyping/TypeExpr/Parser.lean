import Subtyping.Limits.DepthGauge
import Subtyping.TypeExpr.Basic
import Subtyping.TypeExpr.Token

/-!
# Reading type expressions

`TypeExpr.parse` reads a whole text. The parser is a state monad over the tokens that are left and
a gauge of how deep expressions are nested; an error keeps the state, so the gauge can be seen to
come back to zero however the parser ends.
-/

namespace Subtyping.TypeExpr

/-- Why a text is not a type expression. -/
inductive ParseError where
  | unexpected (found : Char) (offset : Nat)
  | mismatch (expected found : Char)
  | incomplete (expected : Char)
  | nameExpected
  | tooDeep
deriving DecidableEq, Repr

/-- How much of a text an error shows when the text is nested too deeply. -/
def shownLength : Nat := 64

/-- The beginning of a text, with dots if it goes on. -/
def shortened (input : String) : String :=
  let cs := input.toList
  if cs.length ≤ shownLength then input else String.ofList (cs.take shownLength) ++ "..."

/-- The text of an error in a given input. -/
def ParseError.message (input : String) : ParseError → String
  | unexpected found offset =>
    s!"unexpected '{found}' at offset {offset} in type expression '{input}'"
  | mismatch expected found =>
    s!"expected '{expected}' but found '{found}' in type expression '{input}'"
  | incomplete expected =>
    s!"expected '{expected}' but reached the end of type expression '{input}'"
  | nameExpected => s!"expected a type name in type expression '{input}'"
  | tooDeep =>
    s!"type expression nests deeper than {maxLevel} levels: '{shortened input}'"

/-- What is left to read, and how deep the parser is. -/
structure Cursor where
  rest : List Token
  gauge : DepthGauge

/-- Reading that may fail. -/
abbrev Parser := ExceptT ParseError (StateM Cursor)

namespace Parser

/-- The next character that is not part of a name. -/
def peekMark : Parser (Option Char) := do
  match (← get).rest with
  | .mark _ c :: _ => return some c
  | _ => return none

/-- Skips a token. -/
def advance : Parser Unit :=
  modify fun s => { s with rest := s.rest.tail }

/-- Reads a character if it is the next one. -/
def accept (c : Char) : Parser Bool := do
  if (← peekMark) = some c then
    advance
    return true
  else
    return false

/-- Reads a character that must come next. -/
def expect (c : Char) : Parser Unit := do
  match (← get).rest with
  | [] => throw (.incomplete c)
  | token :: rest =>
    if token.char = c then
      modify ({ · with rest })
    else
      throw (.mismatch c token.char)

/-- Reads a name. -/
def typeName : Parser String := do
  match (← get).rest with
  | .name _ first others :: rest =>
    modify ({ · with rest })
    return String.ofList (first :: others)
  | _ => throw .nameExpected

/-- Reads commas, and counts them; there are at most `bound`. -/
def commas : (bound : Nat) → Parser Nat
  | 0 => return 0
  | bound + 1 => do
    if ← accept ',' then
      return (← commas bound) + 1
    else
      return 0

/-- Reads expressions that are each preceded by a comma; there are at most `bound`. -/
def others (item : Parser TypeExpr) : (bound : Nat) → Parser (List TypeExpr)
  | 0 => return []
  | bound + 1 => do
    if ← accept ',' then
      let expr ← item
      return expr :: (← others item bound)
    else
      return []

/-- Reads what stands between the brackets after a name: empty slots or arguments. -/
def argumentsOf (name : String) (inner : Parser TypeExpr) : Parser TypeExpr := do
  let bound := (← get).rest.length
  match ← peekMark with
  | some '>' | some ',' =>
    let separators ← commas bound
    expect '>'
    return .slots name (separators + 1)
  | _ =>
    let first ← inner
    let args ← others inner bound
    expect '>'
    return .apply name (first :: args)

/-- Reads an expression, given how to read those inside it. -/
def exprWith (inner : Parser TypeExpr) : Parser TypeExpr := do
  let name ← typeName
  if ← accept '<' then
    argumentsOf name inner
  else
    return .name name

/-- Reads something one level deeper, and comes up again however that ends. -/
def deeper {α : Type} (x : Parser α) : Parser α :=
  ExceptT.mk do
    let result ← x.run
    modify fun s => { s with gauge := s.gauge.leave }
    return result

/-- Asks to go one level deeper. -/
def enter : Parser Bool :=
  modifyGet fun { rest, gauge } =>
    let (granted, gauge) := gauge.enter
    (granted, { rest, gauge })

/-- Reads an expression; `levels` is what the gauge allows from here. -/
def expr (levels : Nat) : Parser TypeExpr := do
  unless ← enter do
    throw .tooDeep
  match levels with
  | 0 => deeper (throw .tooDeep)
  | levels + 1 => deeper (exprWith (expr levels))

/-- Reads an expression and nothing after it. -/
def whole : Parser TypeExpr := do
  let e ← expr maxLevel
  match (← get).rest with
  | [] => return e
  | token :: _ => throw (.unexpected token.char token.offset)

end Parser

/-- Reads a type expression. -/
def parse (input : String) : Except ParseError TypeExpr :=
  (Parser.whole.run { rest := Token.ofText input, gauge := .new maxLevel }).1

end Subtyping.TypeExpr
