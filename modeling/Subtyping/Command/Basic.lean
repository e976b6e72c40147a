/-!
# Commands

What can be asked for on the command line, and the ways in which a command line can fail to ask
for anything.
-/

namespace Subtyping

/-- What is to be done. -/
inductive Action where
  /-- Answer one query in the universe of a file. -/
  | check (file source target : String) (json : Bool)
  /-- Answer all queries of a file. -/
  | run (file : String) (json : Bool)
deriving DecidableEq, Repr

/-- A command and its options. -/
structure Command where
  maxDepth : Option Nat
  action : Action
deriving DecidableEq, Repr

/-- Why a command line gives no command. -/
inductive Usage where
  | help
  | version
  /-- There are no arguments. -/
  | nothing
  | missingSubcommand
  | missingArgument
  | invalidValue
  | conflict
  | unknownArgument
  | tooManyValues
  | invalidSubcommand
  | valueValidation
deriving DecidableEq, Repr

/-- The status a program ends with: asking for help or for the version is no error. -/
def Usage.exitCode : Usage → Nat
  | help | version => 0
  | _ => 2

end Subtyping
