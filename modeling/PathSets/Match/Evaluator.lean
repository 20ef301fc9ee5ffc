import PathSets.Expression.Text
import PathSets.Match.Automaton

/-!
# Matching expressions

An evaluator is a complete expression with an automaton in the place of each
pattern.  `Evaluator.matchPath` runs the automata along a path from the root and
combines their verdicts.

A cursor keeps the states of the automata for one path, so that the paths below
can be matched in one step each (`Evaluator.resume`).  Once the verdict is
constant the states are dropped: nothing below can change it.
-/

namespace PathSets

/-- An expression over leaves of any type. -/
inductive Formula (α : Type) where
  | nothing
  | leaf (value : α)
  | complement (operand : Formula α)
  | binary (op : Operator) (left right : Formula α)

/-- The verdict on two combined operands. -/
def Operator.verdict : Operator → Verdict → Verdict → Verdict
  | intersection => Verdict.and
  | difference => Verdict.subtract
  | juxtaposition => Verdict.or
  | union => Verdict.or

namespace Formula

variable {α β : Type}

/-- The formula with each leaf replaced. -/
def map (f : α → β) : Formula α → Formula β
  | nothing => nothing
  | leaf a => leaf (f a)
  | complement operand => complement (operand.map f)
  | binary op left right => binary op (left.map f) (right.map f)

/-- The combined verdict, given the verdict on each leaf. -/
def verdict (f : α → Verdict) : Formula α → Verdict
  | nothing => .always false
  | leaf a => f a
  | complement operand => (operand.verdict f).complement
  | binary op left right => op.verdict (left.verdict f) (right.verdict f)

end Formula

/-- Why an expression cannot be matched. -/
inductive BuildError where
  /-- The expression, of this text, has references. -/
  | incomplete (text : String)
  | pattern (error : PatternError)
  deriving DecidableEq, Repr

/-- The error in words. -/
def BuildError.message : BuildError → String
  | incomplete text => s!"Cannot build evaluator for incomplete expression: {text}"
  | pattern error => error.message

/-- A complete expression that is ready to be matched, and its text. -/
structure Evaluator where
  text : String
  formula : Formula Automaton

/-- An automaton and its state. -/
structure Run where
  automaton : Automaton
  state : State

namespace Run

def start (a : Automaton) : Run := ⟨a, a.start⟩

def advance (p : Path) (r : Run) : Run := ⟨r.automaton, r.automaton.advance p r.state⟩

def verdict (r : Run) : Verdict := r.automaton.verdict r.state

end Run

/-- Where matching stands at a path: the verdict, and the runs that matching goes on
with below the path.  There are none below a constant verdict. -/
structure Cursor where
  path : Path
  runs : Option (Formula Run)
  verdict : Verdict

namespace Tree

/-- The tree with an automaton for each pattern. -/
def compile (library : Library) : Tree → Except BuildError (Formula Automaton)
  | leaf (.pattern p) => do
    return .leaf (← (Automaton.ofPattern library p).mapError .pattern)
  | leaf (.reference r) => .error (.incomplete r.text)
  | complement operand => do
    return .complement (← operand.compile library)
  | binary op left right => do
    let left ← left.compile library
    return .binary op left (← right.compile library)

end Tree

namespace Expression

/-- The expression with an automaton for each pattern. -/
def compile (library : Library) : Expression → Except BuildError (Formula Automaton)
  | nothing => .ok .nothing
  | of tree => tree.compile library

end Expression

namespace Cursor

/-- The cursor for a path with the given runs. -/
def ofRuns (p : Path) (runs : Formula Run) : Cursor :=
  ⟨p, some runs, runs.verdict Run.verdict⟩

def isConstant (c : Cursor) : Bool :=
  c.verdict.constant

/-- The cursor for `p`, which is one element below the cursor's path. -/
def advance (c : Cursor) (p : Path) : Cursor :=
  if c.isConstant then ⟨p, none, c.verdict⟩
  else
    match c.runs with
    | none => ⟨p, none, c.verdict⟩
    | some runs => ofRuns p (runs.map (·.advance p))

end Cursor

namespace Evaluator

/-- The evaluator of an expression whose predicates call functions of a library. -/
def ofExpression (library : Library) (e : Expression) : Except BuildError Evaluator :=
  if e.hasReferences then .error (.incomplete e.text)
  else do
    return ⟨e.text, ← e.compile library⟩

/-- The cursor for the root. -/
def rootCursor (ev : Evaluator) : Cursor :=
  .ofRuns .root (ev.formula.map Run.start)

/-- The cursor for a path.  Paths that are not absolute match nothing. -/
def start (ev : Evaluator) (p : Path) : Cursor :=
  if p.isAbsolute then p.lineage.foldl Cursor.advance ev.rootCursor
  else ⟨p, none, .always false⟩

/-- The cursor for a path, found in one step if the path is one element below that
of the given cursor, and from the root otherwise. -/
def resume (ev : Evaluator) (c : Cursor) (p : Path) : Cursor :=
  if p.isAbsolute && p.parent? == some c.path then c.advance p else ev.start p

/-- The verdict on a path. -/
def matchPath (ev : Evaluator) (p : Path) : Verdict :=
  (ev.start p).verdict

end Evaluator

end PathSets
