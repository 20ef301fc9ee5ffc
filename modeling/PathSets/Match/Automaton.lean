import PathSets.Glob.RegexText
import PathSets.Match.Verdict
import PathSets.Path.Edit
import PathSets.Pattern.Basic
import PathSets.Predicate.Library

/-!
# Pattern automata

A pattern is matched by an automaton that consumes the elements of a path one by
one.  Its steps are the components that are no stretches, each with a mark for a
stretch in front of it; a stretch behind the last step is marked separately.

While the path is still above the base the automaton is pending.  From the base
on it is at a set of positions, where position `k` means that the first `k` steps
have been taken: a step takes an element that it accepts, a stretch takes any
element and stays.  A bare predicate directly after a stretch may also take no
element, if it holds of the last element before it.  When no position is left the
automaton is dead, for this path and everything below it.

`Automaton.ofPattern` builds the automaton, `start`, `advance` and `verdict` run
it.
-/

namespace PathSets

/-- Why a pattern cannot be matched. -/
inductive PatternError where
  /-- A glob whose regular expression is refused. -/
  | invalidGlob (glob : String)
  /-- A predicate that calls a function missing from the library. -/
  | unknownPredicate (name : String)
  deriving DecidableEq, Repr

/-- The error in words. -/
def PatternError.message : PatternError → String
  | invalidGlob glob => s!"Invalid glob pattern: {glob}"
  | unknownPredicate name => s!"Unknown predicate function: {name}"

/-- What a step asks of the name of an element. -/
inductive NameTest where
  | exactly (name : String)
  | fits (matcher : List Char → Bool)
  /-- Any name, for a bare predicate. -/
  | any

namespace NameTest

def accepts : NameTest → String → Bool
  | exactly expected, name => name == expected
  | fits matcher, name => matcher name.toList
  | any, _ => true

def isAny : NameTest → Bool
  | any => true
  | _ => false

end NameTest

/-- What a step asks of the kind of an element. -/
inductive KindTest where
  | prim
  | property
  | either
  deriving DecidableEq, Repr

def KindTest.accepts : KindTest → Path → Bool
  | prim, p => p.isPrim
  | property, p => p.isProperty
  | either, _ => true

/-- A component that takes one element.  The element is given as the path that ends
in it. -/
structure Step where
  /-- Whether a stretch comes before the step. -/
  afterStretch : Bool
  kind : KindTest
  name : NameTest
  condition : Option LinkedPredicate

namespace Step

/-- Whether the condition of the step, if it has one, is true of a path. -/
def allows (s : Step) (p : Path) : Bool :=
  s.condition.all (·.evaluate p)

/-- Whether the step takes the last element of a path. -/
def accepts (s : Step) (p : Path) : Bool :=
  s.kind.accepts p && s.name.accepts p.name && s.allows p

/-- Whether the step may be taken without an element, given that the last one
before it is the end of `p`. -/
def isFree (s : Step) (p : Path) : Bool :=
  s.afterStretch && s.name.isAny && s.accepts p

end Step

/-- The automaton of a pattern. -/
structure Automaton where
  base : Path
  steps : List Step
  /-- Whether a stretch comes after the last step. -/
  trailing : Bool

/-- How far an automaton has come with a path. -/
inductive State where
  /-- The path leads to the base of the pattern. -/
  | pending
  /-- For each position whether the automaton can be there, the start first. -/
  | live (positions : List Bool)
  /-- Neither the path nor anything below it matches. -/
  | dead
  deriving DecidableEq, Repr

/-! ## Building automata -/

namespace Step

/-- What a component asks of a name.  A stretch asks nothing. -/
def nameTest (library : Library) : Component → Except PatternError NameTest
  | .named name _ => .ok (.exactly name)
  | .glob shape _ =>
    match library.engine.compile? (Glob.toRegexText shape.toList) with
    | some matcher => .ok (.fits matcher)
    | none => .error (.invalidGlob shape)
  | _ => .ok .any

/-- What a component asks of the path that ends in the element. -/
def linkCondition (library : Library) :
    Option Predicate → Except PatternError (Option LinkedPredicate)
  | none => .ok none
  | some predicate => do
    return some (← (predicate.link library).mapError .unknownPredicate)

/-- The step for a component, which is a property if it ends a property pattern. -/
def ofComponent (library : Library) (afterStretch endsProperty : Bool) (c : Component) :
    Except PatternError Step := do
  let name ← nameTest library c
  let condition ← linkCondition library c.condition?
  let kind := if c.isBare then KindTest.either else if endsProperty then .property else .prim
  return { afterStretch, kind, name, condition }

end Step

namespace Automaton

/-- The steps for some components, and whether a stretch comes after the last. -/
def stepsOf (library : Library) (isProperty : Bool) :
    (afterStretch : Bool) → List Component → Except PatternError (List Step × Bool)
  | afterStretch, [] => .ok ([], afterStretch)
  | _, .stretch :: components => stepsOf library isProperty true components
  | afterStretch, c :: components => do
    let step ← Step.ofComponent library afterStretch (isProperty && components.isEmpty) c
    let (steps, trailing) ← stepsOf library isProperty false components
    return (step :: steps, trailing)

/-- The automaton of a pattern. -/
def ofPattern (library : Library) (p : Pattern) : Except PatternError Automaton := do
  let (steps, trailing) ← stepsOf library p.isProperty false p.components
  return { base := p.base, steps, trailing }

/-! ## Running automata -/

/-- The positions of an automaton that has taken no step yet. -/
def initial (steps : List Step) : List Bool :=
  true :: steps.map fun _ => false

/-- The positions after those that the steps free at `p` lead to are added.
`reached` tells whether a free step leads to the first position. -/
def close (p : Path) : (reached : Bool) → List Step → List Bool → List Bool
  | reached, s :: steps, here :: positions =>
    let here := here || reached
    here :: close p (here && s.isFree p) steps positions
  | reached, _, here :: positions => (here || reached) :: positions
  | _, _, [] => []

/-- The positions after the last element of `p` is taken, without free steps.
`reached` tells whether a step leads to the first position. -/
def take (trailing : Bool) (p : Path) : (reached : Bool) → List Step → List Bool → List Bool
  | reached, s :: steps, here :: positions =>
    (reached || (here && s.afterStretch)) :: take trailing p (here && s.accepts p) steps positions
  | reached, [], here :: _ => [reached || (here && trailing)]
  | _, _, [] => []

/-- The state at the root, before any element. -/
def start (a : Automaton) : State :=
  if a.base.isRoot then .live (initial a.steps)
  else if a.base.isAbsolute then .pending
  else .dead

/-- The state after the last element of `p`. -/
def advance (a : Automaton) (p : Path) : State → State
  | .dead => .dead
  | .pending =>
    if p = a.base then .live (close p false a.steps (initial a.steps))
    else if a.base.isWithin p then .pending
    else .dead
  | .live positions =>
    let next := close p false a.steps (take a.trailing p false a.steps positions)
    if next.any id then .live next else .dead

/-- What a state says about the path that led to it. -/
def verdict (a : Automaton) : State → Verdict
  | .pending => .varying false
  | .dead => .always false
  | .live positions =>
    let done := positions.getLastD false
    if done && a.trailing then .always true else .varying done

end Automaton

end PathSets
