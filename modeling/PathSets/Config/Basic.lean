import PathSets.Expression.Reader

/-!
# Configurations

A configuration names expressions, which references `%:name` stand for, and says
how far the search for further configurations goes.  It keeps the texts of its
expressions, in the order of their names, and they are read again whenever they
are needed.

`ConfigError` holds all that can go wrong between a file and a table of
definitions, with the file's path.
-/

namespace PathSets

/-- A configuration. -/
structure Config where
  /-- Whether the search for configurations in parent directories ends here. -/
  root : Bool := false
  /-- Whether no further configuration counts, not even the user's own. -/
  noExternalLookup : Bool := false
  /-- The environment variable that turns the user's own configuration off. -/
  disableVariable : Option String := none
  /-- The texts of the named expressions in ascending order of their names. -/
  references : List (String × String) := []
  deriving DecidableEq, Repr

/-- A configuration and the path of its file. -/
structure LoadedConfig where
  path : String
  config : Config

/-- Why the definition of a name is not accepted. -/
inductive DefinitionFault where
  | name
  | expression (fault : ExpressionFault)
  deriving DecidableEq, Repr

instance : Fault DefinitionFault where
  message
    | .name => "reference names must be identifiers other than '_'"
    | .expression fault => Fault.message fault

/-- Why a reference cannot be used. -/
inductive ReferenceError where
  /-- Its definition is not well formed. -/
  | definition (error : SyntaxError DefinitionFault)
  /-- Its definition leads back to it through these names. -/
  | cycle (chain : List String)
  deriving DecidableEq, Repr

/-- The error in words. -/
def ReferenceError.message : ReferenceError → String
  | definition error => error.message
  | cycle chain => "Reference cycle: " ++ " -> ".intercalate (chain.map ("%:" ++ ·))

/-- What goes wrong with configurations.  `path` is the path of a file. -/
inductive ConfigError where
  | unreadable (path : String)
  | malformed (path : String)
  | reference (name path : String) (error : ReferenceError)
  deriving DecidableEq, Repr

/-- The error in words. -/
def ConfigError.message : ConfigError → String
  | unreadable path => s!"Failed to read config file: {path}"
  | malformed path => s!"Failed to parse config file: {path}"
  | reference name path _ => s!"Invalid expression for reference '{name}' in {path}"

end PathSets
