import Subtyping.Command.Basic

/-!
# Command lines

A command line has options, then a subcommand with options and arguments of its own. Options are
known by a long name, some also by a letter; a value is attached to its option or follows it. After
`--` everything is an argument. The value of an option is looked at only when something else
follows it, so of two things that are wrong an unknown option comes before a bad value to its left.
-/

namespace Subtyping.Command

/-! ## What is known at each level -/

/-- Where options and arguments are read: before the subcommand, or for one. -/
inductive Level where
  | top
  | check
  | run
deriving DecidableEq, Repr

/-- An option with a value. -/
inductive Valued where
  | maxDepth
  | file
deriving DecidableEq, Repr

/-- An option without a value. -/
inductive Switch where
  | json
  | help
  | version
deriving DecidableEq, Repr

/-- An option. -/
inductive Flag where
  | valued (option : Valued)
  | switch (switch : Switch)
deriving DecidableEq, Repr

/-- The option with a long name. -/
def Level.long? : Level → String → Option Flag
  | _, "max-depth" => some (.valued .maxDepth)
  | _, "help" => some (.switch .help)
  | .top, "version" => some (.switch .version)
  | .check, "universe" | .run, "universe" => some (.valued .file)
  | .check, "json" | .run, "json" => some (.switch .json)
  | _, _ => none

/-- The option with a letter. -/
def Level.short? : Level → Char → Option Flag
  | _, 'h' => some (.switch .help)
  | .top, 'V' => some (.switch .version)
  | .check, 'u' | .run, 'u' => some (.valued .file)
  | _, _ => none

/-- The number of arguments. -/
def Level.arguments : Level → Nat
  | .check => 2
  | .top | .run => 0

/-- The subcommands. -/
def subcommands : List String :=
  ["check", "run", "help"]

/-! ## Values -/

/-- A number of 32 bits, with leading zeros and a sign if need be. -/
def word? (s : String) : Option Nat :=
  let (negative, digits) :=
    match s.toList with
    | '-' :: cs => (true, cs)
    | '+' :: cs => (false, cs)
    | cs => (false, cs)
  let n := digits.foldl (fun n c => 10 * n + (c.toNat - '0'.toNat)) 0
  if digits.isEmpty || !digits.all Char.isDigit || Nat.pow 2 32 ≤ n || (negative && n ≠ 0) then
    none
  else
    some n

/-! ## Reading one level -/

/-- What was read at a level. -/
structure Parsed where
  maxDepth : Option Nat := none
  file : Option String := none
  json : Bool := false
  arguments : List String := []
  /-- An option whose value is not looked at yet, and the value if it has come. -/
  pending : Option (Valued × Option String) := none
  /-- The rest are arguments. -/
  trailing : Bool := false

namespace Parsed

/-- Waits for a value. -/
def awaits (p : Parsed) : Bool :=
  match p.pending with
  | some (_, none) => true
  | _ => false

/-- Looks at the value of an option; an option stands at most once. -/
def assign (p : Parsed) (option : Valued) (value : String) : Except Usage Parsed :=
  match option with
  | .maxDepth =>
    if p.maxDepth.isSome then
      throw .conflict
    else
      match word? value with
      | some n => return { p with maxDepth := some n }
      | none => throw .valueValidation
  | .file =>
    if p.file.isSome then
      throw .conflict
    else if value.isEmpty then
      throw .invalidValue
    else
      return { p with file := some value }

/-- Looks at the value that is pending. -/
def settle (p : Parsed) : Except Usage Parsed :=
  match p.pending with
  | none => return p
  | some (_, none) => throw .invalidValue
  | some (option, some value) => { p with pending := none }.assign option value

/-- An option whose value may follow. -/
def begin (p : Parsed) (option : Valued) : Except Usage Parsed := do
  return { ← p.settle with pending := some (option, none) }

/-- An option with its value attached. -/
def attach (p : Parsed) (option : Valued) (value : String) : Except Usage Parsed := do
  (← p.settle).assign option value

/-- An option without a value. -/
def turnOn (p : Parsed) (switch : Switch) : Except Usage Parsed := do
  let p ← p.settle
  match switch with
  | .help => throw .help
  | .version => throw .version
  | .json => if p.json then throw .conflict else return { p with json := true }

/-- An argument by position. -/
def argument (level : Level) (p : Parsed) (arg : String) : Except Usage Parsed := do
  if p.arguments.length < level.arguments then
    let p ← p.settle
    return { p with arguments := p.arguments ++ [arg] }
  else if level = .top ∧ !p.trailing then
    throw .invalidSubcommand
  else
    throw .unknownArgument

/-- An option by its long name, with the value behind an equals sign. -/
def long (level : Level) (p : Parsed) (text : List Char) : Except Usage Parsed :=
  let name := String.ofList (text.takeWhile (· != '='))
  let value :=
    match text.dropWhile (· != '=') with
    | _ :: value => some (String.ofList value)
    | [] => none
  match level.long? name, value with
  | none, _ => throw .unknownArgument
  | some (.valued option), some value => p.attach option value
  | some (.valued option), none => p.begin option
  | some (.switch _), some _ => throw .tooManyValues
  | some (.switch switch), none => p.turnOn switch

/-- Options by letters; the first that takes a value takes what follows it. -/
def short (level : Level) (p : Parsed) : List Char → Except Usage Parsed
  | [] => return p
  | c :: cs =>
    match level.short? c, cs with
    | none, _ => throw .unknownArgument
    | some (.switch switch), cs => do short level (← p.turnOn switch) cs
    | some (.valued option), [] => p.begin option
    | some (.valued option), '=' :: value => p.attach option (String.ofList value)
    | some (.valued option), value => p.attach option (String.ofList value)

/-- A word that begins with no dash, or stands behind `--`. -/
def word (level : Level) (p : Parsed) (arg : String) : Except Usage Parsed :=
  match p.pending, p.trailing with
  | some (option, none), false => return { p with pending := some (option, some arg) }
  | _, _ => p.argument level arg

/-- Reads one word of the command line. -/
def step (level : Level) (p : Parsed) (arg : String) : Except Usage Parsed :=
  if p.trailing then
    p.word level arg
  else
    match arg.toList with
    | ['-', '-'] => return { p with trailing := true }
    | '-' :: '-' :: text => p.long level text
    | '-' :: c :: text => p.short level (c :: text)
    | _ => p.word level arg

/-- Whether a word names a subcommand, and what follows is for that. -/
def startsSubcommand (level : Level) (p : Parsed) (arg : String) : Bool :=
  level = .top && !p.trailing && !p.awaits && subcommands.contains arg

/-- Reads a level up to its end or to a subcommand. -/
def read (level : Level) (p : Parsed) :
    List String → Except Usage (Parsed × Option (String × List String))
  | [] => return (p, none)
  | arg :: args =>
    if p.startsSubcommand level arg then
      return (p, some (arg, args))
    else do
      read level (← p.step level arg) args

end Parsed

/-! ## Reading all -/

/-- Reads the words for a subcommand. -/
def readAction (name : String) (args : List String) : Except Usage (Option Nat × Action) := do
  let level := if name == "check" then Level.check else Level.run
  let (p, _) ← Parsed.read level {} args
  let p ← p.settle
  let some file := p.file | throw .missingArgument
  match level, p.arguments with
  | .check, [source, target] => return (p.maxDepth, .check file source target p.json)
  | .check, _ => throw .missingArgument
  | _, _ => return (p.maxDepth, .run file p.json)

/-- What help is given on: nothing, or one subcommand. -/
def helpOn : List String → Usage
  | [] => .help
  | [name] => if subcommands.contains name then .help else .invalidSubcommand
  | _ :: _ :: _ => .invalidSubcommand

/-- Reads a command line. A depth given for the subcommand comes before one given in front of
it. -/
def ofArgs (args : List String) : Except Usage Command := do
  let (p, subcommand) ← Parsed.read .top {} args
  match subcommand with
  | some ("help", names) => throw (helpOn names)
  | some (name, args) =>
    let (maxDepth, action) ← readAction name args
    let p ← p.settle
    return { maxDepth := maxDepth.or p.maxDepth, action }
  | none =>
    let p ← p.settle
    throw (if p.maxDepth.isSome then .missingSubcommand else .nothing)

end Subtyping.Command
