import PathSets.Config.Reader
import PathSets.Expression.Substitution

/-!
# Merging configurations

Configurations come nearest first, and of several definitions of one name the
nearest counts.  The expressions of each are read from its texts.  A reference
`%:name` depends on the names that its definition refers to; references with a path
and `%_` are never defined by a configuration.

Definitions must not depend on themselves, however indirectly, because they could
never be resolved.  `Definitions.checkFrom` searches depth first along the
dependencies.  It keeps the chain of names from the start to the present one, and
the names from which no cycle can be reached.  A name that comes up again on its
own chain closes a cycle.
-/

namespace PathSets

/-- An expression and the path of the file that defines it. -/
structure Definition where
  expression : Expression
  source : String

/-- Definitions by name, in ascending order of the names. -/
abbrev Definitions : Type :=
  List (String × Definition)

namespace Definitions

/-- The definition of a name. -/
def find? (definitions : Definitions) (name : String) : Option Definition :=
  definitions.lookup name

/-- What a reference stands for, `nothing` if it is not defined. -/
def answer (definitions : Definitions) (r : Reference) : Expression :=
  if r.path.isEmpty then
    match definitions.find? r.name with
    | some d => d.expression
    | none => .nothing
  else .nothing

/-- The expression with all references replaced by their definitions. -/
def resolve (definitions : Definitions) (e : Expression) : Expression :=
  e.resolve (m := Id) (fun r => definitions.answer r) (definitions.length + 1)

/-- The names that an expression refers to. -/
def namesIn (e : Expression) : List String :=
  e.references.filterMap fun r => if r.path.isEmpty && !r.isWeaker then some r.name else none

/-- The names that the definition of a name refers to. -/
def dependencies (definitions : Definitions) (name : String) : List String :=
  match definitions.find? name with
  | some d => namesIn d.expression
  | none => []

/-- Goes on from the last name of a chain.  The result is the list of names from
which no cycle can be reached, `done` and more, or the cycle that was found: the
part of the chain from the first time the name stands in it, and the name again.
No chain is longer than `limit`. -/
def checkFrom (definitions : Definitions) :
    (limit : Nat) → (chain : List String) → (name : String) → (done : List String) →
    Except (List String) (List String)
  | 0, _, _, done => .ok done
  | limit + 1, chain, name, done => do
    let done ← (definitions.dependencies name).reverse.foldlM (fun done next =>
      if next ∈ done then .ok done
      else if next ∈ chain then .error (chain.dropWhile (· != next) ++ [next])
      else checkFrom definitions limit (chain ++ [next]) next done) done
    return name :: done

/-- Looks for a cycle from each name in order. -/
def findCycle (definitions : Definitions) : Except (List String) (List String) :=
  (definitions.map (·.1)).foldlM (fun done name =>
    if name ∈ done then .ok done
    else checkFrom definitions (definitions.length + 1) [name] name done) []

/-- Adds a definition for a name that has none yet. -/
def add (definitions : Definitions) (name : String) (d : Definition) : Definitions :=
  if (definitions.find? name).isSome then definitions else definitions ++ [(name, d)]

/-- Adds those definitions of a file whose names have none yet. -/
def addAll (definitions : Definitions) (source : String) (entries : List (String × Expression)) :
    Definitions :=
  entries.foldl (fun ds (name, e) => ds.add name ⟨e, source⟩) definitions

/-- Adds the definitions of a configuration for names that have none yet. -/
def addConfig (definitions : Definitions) (loaded : LoadedConfig) :
    Except ConfigError Definitions := do
  return definitions.addAll loaded.path (← loaded.config.expressions loaded.path)

/-- All definitions of some configurations, the nearest for each name. -/
def ofConfigs (configs : List LoadedConfig) : Except ConfigError Definitions := do
  let definitions ← configs.foldlM addConfig []
  return definitions.mergeSort fun a b => a.1 ≤ b.1

/-- The file that a name is defined in, empty if there is none. -/
def sourceOf (definitions : Definitions) (name : String) : String :=
  ((definitions.find? name).map (·.source)).getD ""

/-- All definitions of some configurations, provided that none depends on itself. -/
def merge (configs : List LoadedConfig) : Except ConfigError Definitions := do
  let definitions ← ofConfigs configs
  match definitions.findCycle with
  | .ok _ => return definitions
  | .error chain =>
    let name := chain.getLastD ""
    .error (.reference name (definitions.sourceOf name) (.cycle chain))

end Definitions

end PathSets
