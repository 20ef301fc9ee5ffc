import PathSets.Command.Run

/-!
# The program

The surroundings of a command are the real ones: the file system, the environment
and the user's home directory.  The files and variables that a command may come to
are read before it runs.
-/

namespace PathSets

/-- What is found at a path. -/
def readState (path : String) : IO FileState := do
  try
    return .text (← IO.FS.readFile path)
  catch
    | .noFileOrDirectory .. => return .absent
    | _ => return .unreadable

/-- A directory by its path. -/
def directoryOf (path : String) : Directory :=
  if path = "/" then [""] else path.splitOn "/"

/-- The variable that the configuration in a file names. -/
def variableIn? : String × FileState → Option String
  | (path, .text content) => (Config.parse path content).toOption.bind (·.disableVariable)
  | _ => none

end PathSets

open PathSets in
def main (arguments : List String) : IO UInt32 := do
  let directory := directoryOf (toString (← IO.currentDir))
  let home := ((← IO.getEnv "HOME").filter (· ≠ "")).map directoryOf
  let paths := (home.toList ++ directory.upwards).map (·.configPath)
  let files ← paths.mapM fun path => return (path, ← readState path)
  let settings ← (files.filterMap variableIn?).mapM fun name => return (name, ← IO.getEnv name)
  let host : Host :=
    { file := fun path => (files.lookup path).getD .absent
      environment := fun name => (settings.lookup name).join }
  let outcome := Command.runWith host home directory arguments
  IO.print outcome.out
  IO.eprint outcome.err
  return outcome.code.toUInt32
