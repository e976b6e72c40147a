/-!
# Styled text

Text for a terminal, in the four styles of a report. A style is opened and closed by escape
sequences; where the text itself closes all styles, its own is opened again.
-/

namespace Subtyping.Report

/-- What a piece of a report is. -/
inductive Style where
  | good
  | bad
  | warning
  | type
deriving DecidableEq, Repr

/-- The sequence that opens a style. -/
def Style.opening : Style → String
  | good => "\x1b[1;32m"
  | bad => "\x1b[1;31m"
  | warning => "\x1b[33m"
  | type => "\x1b[36m"

/-- The sequence that closes all styles. -/
def closing : List Char :=
  ['\x1b', '[', '0', 'm']

/-- Opens a style again behind each place where a text closes it. -/
def reopen (opening : List Char) : List Char → List Char
  | '\x1b' :: '[' :: '0' :: 'm' :: cs => closing ++ opening ++ reopen opening cs
  | c :: cs => c :: reopen opening cs
  | [] => []

/-- A text in a style. -/
def Style.paint (style : Style) (text : String) : String :=
  style.opening ++ String.ofList (reopen style.opening.toList text.toList ++ closing)

end Subtyping.Report
