import PathSets.Config.Basic
import PathSets.Toml.Reader

/-!
# Reading configurations

A configuration is written in TOML.  Four keys of the document count:

* `root` and `no-external-lookup`, which are Boolean;
* `root-config-lookup-disable-env-var`, a string;
* `references`, a table of strings.

Each may be missing, and other keys are of no account.  A document in which one of
them has a value of another type is malformed, like one that is not TOML.  Where a
table is expected, a date counts as one with a single entry.

`Config.decode?` is that much.  What follows it does not depend on how a text is
decoded, and takes the decoder as an argument (`Config.parseWith`): the definitions
are read in the order of their names, and the first one that is not accepted makes
the error.
-/

namespace PathSets

namespace Config

/-! ## Decoding -/

/-- The Boolean at a key, false if it is missing; none for another value. -/
def boolean? (table : Toml.Table) (key : String) : Option Bool :=
  match table.get? key with
  | none => some false
  | some (.boolean b) => some b
  | some _ => none

/-- The string at a key, if there is one; none for another value. -/
def string? (table : Toml.Table) (key : String) : Option (Option String) :=
  match table.get? key with
  | none => some none
  | some (.string s) => some (some s)
  | some _ => none

/-- The key of the text of a date that stands in the place of a table. -/
def dateKey : String := "$__toml_private_datetime"

/-- The strings in the table at a key, empty if it is missing; none for another
value. -/
def strings? (table : Toml.Table) (key : String) : Option (List (String × String)) :=
  match table.get? key with
  | none => some []
  | some (.table _ entries) => entries.mapM fun
    | (name, .string s) => some (name, s)
    | _ => none
  | some (.date text) => some [(dateKey, text)]
  | some _ => none

/-- References in ascending order of their names. -/
def sortReferences (references : List (String × String)) : List (String × String) :=
  references.mergeSort fun a b => a.1 ≤ b.1

/-- The configuration in a document, whatever its expressions are. -/
def ofTable? (table : Toml.Table) : Option Config := do
  let root ← boolean? table "root"
  let noExternalLookup ← boolean? table "no-external-lookup"
  let disableVariable ← string? table "root-config-lookup-disable-env-var"
  let references ← strings? table "references"
  return { root, noExternalLookup, disableVariable, references := sortReferences references }

/-- The configuration that is written in a text, whatever its expressions are. -/
def decode? (text : String) : Option Config :=
  (Toml.parse? text).bind ofTable?

/-! ## Reading the expressions -/

/-- Whether a reference may have this name. -/
def isReferenceName (name : String) : Bool :=
  isIdentifier name.toList && name != weakerName

/-- Reads the definition of a name. -/
def readDefinition (name text : String) : Except (SyntaxError DefinitionFault) Expression :=
  if isReferenceName name then (Expression.parse text).mapError (·.map .expression)
  else .error ⟨0, .name, name⟩

/-- Reads definitions in their order.  `path` is the path of their file. -/
def readDefinitions (path : String) (references : List (String × String)) :
    Except ConfigError (List (String × Expression)) :=
  references.mapM fun (name, text) =>
    match readDefinition name text with
    | .ok e => .ok (name, e)
    | .error error => .error (.reference name path (.definition error))

/-- The named expressions of a configuration.  `path` is the path of its file. -/
def expressions (config : Config) (path : String) :
    Except ConfigError (List (String × Expression)) :=
  readDefinitions path config.references

/-- The named expressions of a configuration if all of them can be read. -/
def definitions (config : Config) : List (String × Expression) :=
  (config.expressions "").toOption.getD []

/-- The configuration that a text spells, provided that its expressions can be read.
`path` is the path of its file. -/
def parseWith (decode : String → Option Config) (path text : String) :
    Except ConfigError Config :=
  match decode text with
  | none => .error (.malformed path)
  | some config => do
    let _ ← config.expressions path
    return config

/-- The configuration that a text in TOML spells. -/
def parse (path text : String) : Except ConfigError Config :=
  parseWith decode? path text

end Config

end PathSets
