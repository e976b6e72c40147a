import Subtyping.Json.Decode
import Subtyping.TypeExpr.Parser
import Subtyping.Universe.Declare

/-!
# Failures

A `Failure` is a cause and the places it was met in, the outermost first. Its text names them all.
-/

namespace Subtyping

/-- Why something failed. -/
inductive Cause where
  /-- A text is not a type expression. -/
  | expression (input : String) (error : TypeExpr.ParseError)
  | unknownName (name : String)
  /-- A generic name stands without arguments. -/
  | bareGeneric (name : String) (arity : Nat)
  /-- A name has the wrong number of empty slots. -/
  | wrongSlots (name : String) (expected found : Nat)
  | refused (error : Universe.Error)
  | notDecoded (error : Json.DecodeError)
  | fileMissing
  | fileIsDirectory
  | fileNotText
deriving DecidableEq, Repr

namespace Cause

/-- The text of a cause. -/
def message : Cause → String
  | expression input error => error.message input
  | unknownName name => s!"unknown type '{name}'"
  | bareGeneric name arity =>
    let slots := String.ofList (List.replicate (arity - 1) ',')
    s!"'{name}' is generic; write '{name}<{slots}>' for the open definition or supply {arity} type argument(s)"
  | wrongSlots name expected found =>
    s!"'{name}' takes {expected} type argument(s), open form has {found}"
  | refused error => error.message
  | notDecoded error => error.message
  | fileMissing => "No such file or directory (os error 2)"
  | fileIsDirectory => "Is a directory (os error 21)"
  | fileNotText => "stream did not contain valid UTF-8"

end Cause

/-- Where a failure was met. -/
inductive Context where
  | applying (name : String)
  | declaring (name : String)
  | baseOf (name : String)
  | interfacesOf (name : String)
  | constraintsOf (param name : String)
  | querySource (expr : String)
  | queryTarget (expr : String)
  | expectedSubstitution (expr : String)
  | query (number : Nat)
  | parsingFile
  | readingFile (path : String)
  | inFile (path : String)
  | buildingFile (path : String)
deriving DecidableEq, Repr

/-- The text of a place. -/
def Context.message : Context → String
  | applying name => s!"cannot apply '{name}'"
  | declaring name => s!"cannot declare '{name}'"
  | baseOf name => s!"in 'extends' of '{name}'"
  | interfacesOf name => s!"in 'implements' of '{name}'"
  | constraintsOf param name => s!"in constraints of '{param}' on '{name}'"
  | querySource expr => s!"in query source '{expr}'"
  | queryTarget expr => s!"in query target '{expr}'"
  | expectedSubstitution expr => s!"in expected substitution '{expr}'"
  | query number => s!"query #{number}"
  | parsingFile => "failed to parse universe file"
  | readingFile path => s!"failed to read universe file {path}"
  | inFile path => s!"in {path}"
  | buildingFile path => s!"invalid universe file {path}"

/-- A cause and the places it was met in, the outermost first. -/
structure Failure where
  contexts : List Context := []
  cause : Cause
deriving DecidableEq, Repr

namespace Failure

/-- The texts of the places and of the cause. -/
def parts (f : Failure) : List String :=
  f.contexts.map Context.message ++ [f.cause.message]

/-- The failure, met in one more place. -/
def within (context : Context) (f : Failure) : Failure :=
  { f with contexts := context :: f.contexts }

end Failure

/-- Work on a universe that may fail. What was done before the failure stays done. -/
abbrev Attempt := ExceptT Failure UniverseM

namespace Attempt

variable {α : Type}

/-- Reads something off the universe. -/
def view (f : Universe → α) : Attempt α :=
  liftM (UniverseM.view f)

/-- Fails from a cause. -/
def fail (cause : Cause) : Attempt α :=
  throw { cause }

/-- Says where a failure was met. -/
def within (context : Context) (x : Attempt α) : Attempt α :=
  ExceptT.mk do
    return (← x.run).mapError (·.within context)

/-- Work that the universe may refuse. -/
def ofDeclaring (x : Declaring α) : Attempt α :=
  ExceptT.mk do
    return (← x.run).mapError fun error => { cause := .refused error }

/-- Runs work on a new universe; gives also the universe and its journal. -/
def onFresh (x : Attempt α) : Except Failure α × Chronicle :=
  x.run Chronicle.fresh

end Attempt

end Subtyping
