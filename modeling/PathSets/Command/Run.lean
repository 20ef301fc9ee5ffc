import PathSets.Command.Arguments
import PathSets.Command.Report
import PathSets.Config.Cascade
import PathSets.Config.Merge
import PathSets.Expression.Relocation

/-!
# Running commands

A command is run on a host, for a user and in a directory, and its outcome is what it
prints and the code it ends with: 0, 1 for an error, or 2 for an incorrect call.
What has been printed before an error stays printed.
-/

namespace PathSets

/-- What a command prints, and the code it ends with. -/
structure Outcome where
  code : Nat := 0
  out : String := ""
  err : String := ""
  deriving DecidableEq, Repr

namespace Outcome

/-- The outcome of printing some lines. -/
def lines (ls : List String) : Outcome :=
  { out := String.join (ls.map (· ++ "\n")) }

/-- The outcome of an error, after some lines have been printed. -/
def failure (f : Failure) (printed : List String) : Outcome :=
  { lines printed with code := 1, err := s!"error: {f.report}\n" }

/-- The outcome of lines that are printed unless there is an error. -/
def ofExcept : Except Failure (List String) → Outcome
  | .ok ls => lines ls
  | .error f => failure f []

end Outcome

namespace Command

/-- Reads an expression. -/
def readExpression (text : String) : Except Failure Expression :=
  (Expression.parse text).mapError fun error =>
    (Failure.ofSyntaxError error).within s!"Invalid expression '{text}'"

/-- Reads a path. -/
def readPath (text : String) : Except Failure Path :=
  (Path.parse text).mapError fun error =>
    (Failure.ofInvalidPath error).within s!"Invalid path '{text}'"

/-- Reads an expression and prints it.  A fault is shown in the text. -/
def runParse (text : String) : Outcome :=
  match Expression.parse text with
  | .ok e => .lines [e.text]
  | .error error => { code := 1, err := error.display }

/-! ## Evaluating -/

/-- The definitions that count in a directory. -/
def loadDefinitions (host : Host) (home : Option Directory) (directory : Directory) :
    Except SearchError Definitions := do
  let configs ← host.search home directory
  (Definitions.merge configs).mapError .config

/-- The evaluator for an expression.  Configurations are loaded only if references
remain after `%_` is replaced. -/
def prepare (host : Host) (home : Option Directory) (directory : Directory) (text : String)
    (weaker : Option String) : Except Failure Evaluator := do
  let e ← readExpression text
  let e ← match weaker with
    | none => pure e
    | some weaker => e.composeOver <$> readExpression weaker
  let e ←
    if e.hasReferences then
      (·.resolve e) <$> (loadDefinitions host home directory).mapError fun error =>
        (Failure.ofSearchError error).within "Failed to load configuration"
    else pure e
  (Evaluator.ofExpression .basic e).mapError fun error =>
    (Failure.ofBuildError error).within s!"Failed to build evaluator for '{e.text}'"

/-- The line for the verdict on a path. -/
def verdictLine (p : Path) (v : Verdict) : String :=
  s!"{p.text}\t{v.matched}\t" ++ if v.constant then "constant" else "varying"

/-- Evaluates paths in order and stops at the first that is not well formed. -/
def evaluateAll (ev : Evaluator) : (printed : List String) → List String → Outcome
  | printed, [] => .lines printed
  | printed, text :: texts =>
    match readPath text with
    | .ok p => evaluateAll ev (printed ++ [verdictLine p (ev.matchPath p)]) texts
    | .error f => .failure f printed

def runEvaluate (host : Host) (home : Option Directory) (directory : Directory) (text : String)
    (paths : List String) (weaker : Option String) : Outcome :=
  match prepare host home directory text weaker with
  | .ok ev => evaluateAll ev [] paths
  | .error f => .failure f []

/-! ## Rewriting -/

/-- Composes expressions, each over those after it. -/
def composeAll (stronger : Expression) : List String → Except Failure Expression
  | [] => .ok stronger
  | text :: texts => do
    composeAll (stronger.composeOver (← readExpression text)) texts

def runCompose : List String → Except Failure (List String)
  | [] => .ok [Expression.nothing.text]
  | text :: texts => do
    let e ← composeAll (← readExpression text) texts
    return [e.text]

def runAnchor (text path : String) : Except Failure (List String) := do
  let e ← readExpression text
  let anchor ← readPath path
  let moved ← (e.anchorAt anchor).mapError fun error =>
    (Failure.ofInvalidPath error).within s!"Cannot anchor '{e.text}' at {anchor.text}"
  return [moved.text]

def runRebase (text old new : String) : Except Failure (List String) := do
  let e ← readExpression text
  let old ← readPath old
  let new ← readPath new
  return [(e.rebase old new).text]

/-! ## Configurations -/

/-- The lines that show the settings of a configuration. -/
def settingsLines (loaded : LoadedConfig) : List String :=
  [ s!"# Source: {loaded.path}"
  , s!"# root: {loaded.config.root}"
  , s!"# no-external-lookup: {loaded.config.noExternalLookup}" ] ++
  (loaded.config.disableVariable.toList.map fun name =>
    s!"# root-config-lookup-disable-env-var: {name}") ++
  [s!"# references: {loaded.config.references.length}"]

/-- The lines that show the expressions of a configuration. -/
def expressionLines (loaded : LoadedConfig) : Except Failure (List String) := do
  let entries ← (loaded.config.expressions loaded.path).mapError fun error =>
    (Failure.ofConfigError error).within s!"Invalid config {loaded.path}"
  return (entries.map fun (name, e) => s!"  %:{name} = {e.text}") ++ [""]

/-- The line for a cascade without configurations. -/
def noConfigLine : String := "No configuration files found."

/-- The lines for the user's own configuration. -/
def userLines (host : Host) (home : Option Directory) : List String :=
  match home with
  | none => []
  | some home =>
    let path := home.configPath
    let found := if host.file path = .absent then "  (not found)" else "  (exists)"
    [s!"User config path: {path}", found]

/-- Shows configurations in order, and then some last lines. -/
def showAll (last : List String) : (printed : List String) → List LoadedConfig → Outcome
  | printed, [] => .lines (printed ++ last)
  | printed, loaded :: configs =>
    let printed := printed ++ settingsLines loaded
    match expressionLines loaded with
    | .ok lines => showAll last (printed ++ lines) configs
    | .error f => .failure f printed

def runShow (host : Host) (home : Option Directory) (directory : Directory) : Outcome :=
  match host.search home directory with
  | .error error =>
    .failure ((Failure.ofSearchError error).within "Failed to discover config files") []
  | .ok configs =>
    showAll (userLines host home)
      (if configs.isEmpty then [noConfigLine] else ["Configuration files (in cascade order):", ""])
      configs

/-- The lines for configurations that are all valid. -/
def validLines (configs : List LoadedConfig) : List String :=
  if configs.isEmpty then [noConfigLine]
  else "All configuration files are valid:" :: configs.map fun loaded =>
    s!"  {loaded.path} ({loaded.config.references.length} references)"

/-- The configurations that count in a directory, provided that they can be merged. -/
def checkConfigs (host : Host) (home : Option Directory) (directory : Directory) :
    Except SearchError (List LoadedConfig) := do
  let configs ← host.search home directory
  let _ ← (Definitions.merge configs).mapError .config
  return configs

def runValidate (host : Host) (home : Option Directory) (directory : Directory) : Outcome :=
  match checkConfigs host home directory with
  | .ok configs => .lines (validLines configs)
  | .error error =>
    { code := 1, err := s!"Configuration error: {(Failure.ofSearchError error).report}\n" }

/-! ## All commands -/

/-- The outcome of a command. -/
def run (host : Host) (home : Option Directory) (directory : Directory) : Command → Outcome
  | parse expression => runParse expression
  | evaluate expression paths weaker => runEvaluate host home directory expression paths weaker
  | compose expressions => .ofExcept (runCompose expressions)
  | anchor expression path => .ofExcept (runAnchor expression path)
  | rebase expression old new => .ofExcept (runRebase expression old new)
  | showConfig => runShow host home directory
  | validateConfig => runValidate host home directory

/-- The line for an incorrect call. -/
def usageLine : String :=
  "usage: parse | match | compose | absolute | replace-prefix | config show | config validate\n"

/-- The outcome of a call with these arguments. -/
def runWith (host : Host) (home : Option Directory) (directory : Directory)
    (arguments : List String) : Outcome :=
  match ofArguments? arguments with
  | some command => command.run host home directory
  | none => { code := 2, err := usageLine }

/-- The outcome of a call with these arguments, for a user with a home directory. -/
def runArguments (s : Surroundings) (directory : Directory) (arguments : List String) : Outcome :=
  runWith s.toHost (some s.home) directory arguments

end Command

end PathSets
