import PathSets.Config.Cascade
import PathSets.Match.Evaluator

/-!
# Reports of errors

An error that ends a command is reported by what went wrong and then the causes,
each on a line of its own, indented, and numbered if there are several.

A fault in the expression given to the command that prints expressions is
reported with the expression and a mark below the fault.
-/

namespace PathSets

/-- What went wrong, and its causes, the nearest first. -/
structure Failure where
  message : String
  causes : List String := []
  deriving DecidableEq, Repr

namespace Failure

/-- The lines of a text, the first one after `first` and the others after `others`. -/
def indent (first others text : String) : String :=
  first ++ ("\n" ++ others).intercalate (text.splitOn "\n")

/-- A number in five columns, and a colon. -/
def label (number : Nat) : String :=
  let digits := toString number
  String.ofList (List.replicate (5 - digits.length) ' ') ++ digits ++ ": "

/-- The causes, one below the other. -/
def writeCauses : List String → List String
  | [cause] => [indent "    " "    " cause]
  | causes => causes.zipIdx.map fun (cause, i) => indent (label i) "       " cause

/-- The report of a failure. -/
def report (f : Failure) : String :=
  if f.causes.isEmpty then f.message
  else f.message ++ "\n\nCaused by:\n" ++ "\n".intercalate (writeCauses f.causes)

/-- The failure seen from a task that it ended. -/
def within (task : String) (f : Failure) : Failure :=
  ⟨task, f.message :: f.causes⟩

/-- An error in a text. -/
def ofSyntaxError {φ : Type} [Fault φ] (error : SyntaxError φ) : Failure :=
  { message := error.message }

def ofInvalidPath (error : InvalidPath) : Failure :=
  { message := error.message }

def ofBuildError (error : BuildError) : Failure :=
  { message := error.message }

/-- An error in a configuration, caused by that in a definition if there is one. -/
def ofConfigError (error : ConfigError) : Failure :=
  match error with
  | .reference _ _ cause => { message := error.message, causes := [cause.message] }
  | _ => { message := error.message }

def ofSearchError : SearchError → Failure
  | .config error => ofConfigError error
  | .homeNotFound => { message := SearchError.homeNotFound.message }

end Failure

namespace SyntaxError

/-- The number of characters before the fault, zero if it lies within one. -/
def column {φ : Type} (error : SyntaxError φ) : Nat :=
  let text := error.input.toList
  ((List.range (text.length + 1)).find? fun n => utf8Size (text.take n) == error.offset).getD 0

/-- The text of an error with a mark below the place of the fault. -/
def display {φ : Type} [Fault φ] (error : SyntaxError φ) : String :=
  let indent := String.ofList (List.replicate error.column ' ')
  s!"error: {Fault.message error.fault} (offset {error.offset})\n  {error.input}\n  {indent}^\n"

end SyntaxError

end PathSets
