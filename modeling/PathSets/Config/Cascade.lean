import PathSets.Config.Reader

/-!
# The cascade of configurations

Configurations are looked for in a directory and in the directories above it, up
to the first one that says that it is the root or that nothing further counts.
The user's own configuration comes last, unless nothing further counts or a
configuration found so far names an environment variable that is set to a true
value.

What is above a directory is a matter of its path alone.  Above `/w/p` come `/w`
and `/`.  Above the relative path `w/p` come `w` and the empty path, which stands
for the directory that paths are relative to.

The file system is a function from paths to what is found there, so the search is
a function too.  Files that the search does not come to are not looked at.  A user
may be without a home directory, which is an error only if it is asked for.
-/

namespace PathSets

/-- What is found at a path. -/
inductive FileState where
  | absent
  /-- Something that is no text file. -/
  | unreadable
  | text (content : String)
  deriving DecidableEq, Repr

/-- A directory: the names of its path.  The first is empty if the path begins at the
top of the file system. -/
abbrev Directory : Type :=
  List String

/-- The name of configuration files. -/
def configFileName : String := ".pathexpr.toml"

namespace Directory

/-- The path of the configuration file in a directory. -/
def configPath (directory : Directory) : String :=
  "/".intercalate (directory ++ [configFileName])

/-- The directory that a directory is in.  There is none for the top and for the empty
path. -/
def parent? (directory : Directory) : Option Directory :=
  if directory = [] ∨ directory = [""] then none else some directory.dropLast

/-- The directory and those above it, upwards, but not more than `limit` of those. -/
def upwardsWithin : (limit : Nat) → (directory : Directory) → List Directory
  | 0, directory => [directory]
  | limit + 1, directory =>
    directory ::
      match directory.parent? with
      | none => []
      | some parent => upwardsWithin limit parent

/-- The directory and those above it, upwards. -/
def upwards (directory : Directory) : List Directory :=
  upwardsWithin directory.length directory

end Directory

/-- The values of environment variables that count as false, in lower case. -/
def falseWords : List String := ["", "0", "false", "no"]

/-- Whether the value of an environment variable counts as true. -/
def isTrue (value : String) : Bool :=
  !falseWords.contains value.toLower

/-- What goes wrong in the search for configurations. -/
inductive SearchError where
  | config (error : ConfigError)
  /-- The user's own configuration is asked for, and the user has no home directory. -/
  | homeNotFound
  deriving DecidableEq, Repr

/-- The error in words. -/
def SearchError.message : SearchError → String
  | config error => error.message
  | homeNotFound => "Failed to resolve home directory"

/-- What the search for configurations depends on, whoever the user is. -/
structure Host where
  file : String → FileState
  environment : String → Option String
  /-- The configuration that is written in a text, whatever its expressions are. -/
  decode : String → Option Config := Config.decode?

namespace Host

/-- The configuration at a path, if there is a file. -/
def load (host : Host) (path : String) : Except ConfigError (Option LoadedConfig) :=
  match host.file path with
  | .absent => .ok none
  | .unreadable => .error (.unreadable path)
  | .text content => do
    let config ← Config.parseWith host.decode path content
    return some { path, config }

/-- The configurations at some paths in order, up to one that ends the search, and
whether that one says that nothing further counts. -/
def climb (host : Host) : List String → Except ConfigError (List LoadedConfig × Bool)
  | [] => .ok ([], false)
  | path :: paths => do
    match ← host.load path with
    | none => climb host paths
    | some loaded =>
      if loaded.config.noExternalLookup then return ([loaded], true)
      else if loaded.config.root then return ([loaded], false)
      else
        let (further, isolated) ← climb host paths
        return (loaded :: further, isolated)

/-- Whether a configuration turns the user's own one off. -/
def isUserDisabledBy (host : Host) (loaded : LoadedConfig) : Bool :=
  (loaded.config.disableVariable.bind host.environment).any isTrue

/-- The configurations on the way up from a directory, nearest first, and whether the
user's own one is asked for after them. -/
def ascend (host : Host) (start : Directory) : Except ConfigError (List LoadedConfig × Bool) := do
  let (configs, isolated) ← host.climb (start.upwards.map (·.configPath))
  return (configs, !(isolated || configs.any host.isUserDisabledBy))

/-- The configurations that count in a directory, nearest first, for a user with this home
directory. -/
def discover (host : Host) (home start : Directory) : Except ConfigError (List LoadedConfig) := do
  let (configs, asksUser) ← host.ascend start
  if asksUser then
    match ← host.load home.configPath with
    | none => return configs
    | some loaded => return configs ++ [loaded]
  else return configs

/-- The configurations that count in a directory, nearest first, for a user who may be
without a home directory. -/
def search (host : Host) (home : Option Directory) (start : Directory) :
    Except SearchError (List LoadedConfig) :=
  match home with
  | some home => (host.discover home start).mapError .config
  | none => do
    let (configs, asksUser) ← (host.ascend start).mapError .config
    if asksUser then .error .homeNotFound else return configs

end Host

/-- A host and the home directory of its user. -/
structure Surroundings extends Host where
  home : Directory

namespace Surroundings

/-- The path of the user's own configuration. -/
def userConfigPath (s : Surroundings) : String :=
  s.home.configPath

/-- The configurations that count in a directory, nearest first. -/
def discover (s : Surroundings) (start : Directory) : Except ConfigError (List LoadedConfig) :=
  s.toHost.discover s.home start

end Surroundings

end PathSets
