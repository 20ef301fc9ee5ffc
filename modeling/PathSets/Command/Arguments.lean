/-!
# Command line arguments

`Command.ofArguments?` finds the command in the arguments of a call, or none if
they are not a correct call.

An argument that begins with `-` is an option, except `-` itself, and the value of
an option follows it in the next argument or after `=`.  Options may stand
anywhere among the other arguments, each at most once.  After `--` nothing is an
option.
-/

namespace PathSets

/-- What the program is asked to do. -/
inductive Command where
  /-- Print the canonical text of an expression. -/
  | parse (expression : String)
  /-- Evaluate an expression at paths, with an expression for `%_`. -/
  | evaluate (expression : String) (paths : List String) (weaker : Option String)
  /-- Compose expressions, strongest first. -/
  | compose (expressions : List String)
  /-- Anchor an expression to a path. -/
  | anchor (expression path : String)
  /-- Replace a path at the front of all paths of an expression. -/
  | rebase (expression old new : String)
  /-- Show the configurations that count. -/
  | showConfig
  /-- Check the configurations that count. -/
  | validateConfig
  deriving DecidableEq, Repr

/-- Arguments without options, and options with their values. -/
structure Arguments where
  positional : List String := []
  options : List (String × String) := []
  deriving DecidableEq, Repr

namespace Arguments

/-- Whether an argument is an option. -/
def isOption (argument : String) : Bool :=
  argument.toList.head? == some '-' && argument != "-"

/-- The name of an option, and its value if it stands in the same argument. -/
def splitOption (argument : String) : String × Option String :=
  let text := argument.toList
  let name := String.ofList (text.takeWhile (· != '='))
  match text.dropWhile (· != '=') with
  | [] => (name, none)
  | _ :: value => (name, some (String.ofList value))

/-- Adds an argument that is no option to those after it. -/
def addPositional (argument : String) (rest : Arguments) : Arguments :=
  { rest with positional := argument :: rest.positional }

/-- Adds an option to those after it, unless it is among them. -/
def addOption? (name value : String) (rest : Arguments) : Option Arguments :=
  if (rest.options.lookup name).isSome then none
  else some { rest with options := (name, value) :: rest.options }

/-- Sorts arguments.  Only the options in `known` are allowed. -/
def sort? (known : List String) : List String → Option Arguments
  | [] => some {}
  | "--" :: rest => some { positional := rest }
  | argument :: rest =>
    if isOption argument then
      let (name, value?) := splitOption argument
      if known.contains name then
        match value?, rest with
        | some value, rest => (sort? known rest).bind (addOption? name value)
        | none, value :: rest =>
          if isOption value then none else (sort? known rest).bind (addOption? name value)
        | none, [] => none
      else none
    else (sort? known rest).map (addPositional argument)

end Arguments

namespace Command

/-- The command in the arguments of a call. -/
def ofArguments? : List String → Option Command
  | "parse" :: rest => do
    match (← Arguments.sort? [] rest).positional with
    | [expression] => some (.parse expression)
    | _ => none
  | "match" :: rest => do
    let arguments ← Arguments.sort? ["--weaker"] rest
    match arguments.positional with
    | expression :: path :: paths =>
      some (.evaluate expression (path :: paths) (arguments.options.lookup "--weaker"))
    | _ => none
  | "compose" :: rest => do
    match (← Arguments.sort? [] rest).positional with
    | [] => none
    | expressions => some (.compose expressions)
  | "absolute" :: rest => do
    let arguments ← Arguments.sort? ["--anchor"] rest
    match arguments.positional, arguments.options.lookup "--anchor" with
    | [expression], some path => some (.anchor expression path)
    | _, _ => none
  | "replace-prefix" :: rest => do
    match (← Arguments.sort? [] rest).positional with
    | [expression, old, new] => some (.rebase expression old new)
    | _ => none
  | "config" :: "show" :: rest => do
    if (← Arguments.sort? [] rest).positional.isEmpty then some .showConfig else none
  | "config" :: "validate" :: rest => do
    if (← Arguments.sort? [] rest).positional.isEmpty then some .validateConfig else none
  | _ => none

end Command

end PathSets
