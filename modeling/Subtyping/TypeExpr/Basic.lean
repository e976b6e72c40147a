/-!
# Type expressions

What stands for a type in a file or on the command line: a name, a generic name with arguments,
or a generic name with empty slots.

    expr := NAME | NAME '<' expr (',' expr)* '>' | NAME '<' ','* '>'
    NAME := [A-Za-z_][A-Za-z0-9_.]*
-/

namespace Subtyping

/-- A type expression. -/
inductive TypeExpr where
  /-- A type without parameters, or a parameter in scope. -/
  | name (name : String)
  /-- A generic declaration with arguments. -/
  | apply (name : String) (args : List TypeExpr)
  /-- A generic declaration with as many empty slots. -/
  | slots (name : String) (arity : Nat)
deriving Repr, BEq

/-- The deepest level at which an expression may stand inside another; the outermost is level
one. -/
def TypeExpr.maxLevel : Nat := 256

end Subtyping
