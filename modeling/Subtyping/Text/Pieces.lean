/-!
# Cutting texts

A text is cut at every place of a separator.
-/

namespace Subtyping.Text

/-- The pieces of a text between the places of a separator; there is always at least one. -/
def pieces (separator : Char) : List Char → List (List Char)
  | [] => [[]]
  | c :: cs =>
    match pieces separator cs with
    | [] => [[c]]
    | first :: others => if c = separator then [] :: first :: others else (c :: first) :: others

/-- The pieces of a text, as texts. -/
def split (separator : Char) (s : String) : List String :=
  (pieces separator s.toList).map String.ofList

end Subtyping.Text
