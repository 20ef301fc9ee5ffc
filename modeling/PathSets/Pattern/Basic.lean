import PathSets.Path.Basic
import PathSets.Predicate.Basic

/-!
# Patterns

A pattern stands for a set of paths.  It has a base, a path that is matched
literally, and components that match what follows the base: stretches of any
length, bare predicates, names and globs, the last two perhaps with a predicate.
A property pattern ends in a property, either as its last component or as the
last element of its base.
-/

namespace PathSets

/-- One component of a pattern. -/
inductive Component where
  /-- Any number of elements, written `//`. -/
  | stretch
  /-- An element of any name for which the predicate holds. -/
  | bare (condition : Predicate)
  /-- An element of this name. -/
  | named (name : String) (condition : Option Predicate)
  /-- An element whose name fits the glob. -/
  | glob (shape : String) (condition : Option Predicate)
  deriving DecidableEq, Repr

namespace Component

/-- The name or glob of the component, empty for the others. -/
def nameText : Component → String
  | stretch => ""
  | bare _ => ""
  | named name _ => name
  | glob shape _ => shape

/-- The predicate of the component. -/
def condition? : Component → Option Predicate
  | stretch => none
  | bare condition => some condition
  | named _ condition => condition
  | glob _ condition => condition

def isStretch : Component → Bool
  | stretch => true
  | _ => false

theorem eq_stretch {c : Component} (h : c.isStretch = true) : c = stretch := by
  cases c with
  | stretch => rfl
  | bare condition => exact absurd h (by simp [isStretch])
  | named name condition => exact absurd h (by simp [isStretch])
  | glob shape condition => exact absurd h (by simp [isStretch])

def isBare : Component → Bool
  | bare _ => true
  | _ => false

/-- Whether the component has a name rather than a glob or nothing. -/
def isLiteral : Component → Bool
  | named _ _ => true
  | _ => false

end Component

/-- A set of paths: a base, and what follows it. -/
structure Pattern where
  base : Path := .empty
  components : List Component := []
  isProperty : Bool := false
  deriving DecidableEq, Repr, Inhabited

namespace Pattern

/-- The empty pattern, which has the empty base and matches nothing. -/
def empty : Pattern := {}

/-- The pattern `//` of all absolute paths. -/
def everything : Pattern := { base := .root, components := [.stretch] }

/-- The pattern `.//` of everything below the place where relative paths start. -/
def everyDescendant : Pattern := { base := .here, components := [.stretch] }

def isEmpty (p : Pattern) : Bool :=
  p.base.isEmpty

def isAbsolute (p : Pattern) : Bool :=
  p.base.isAbsolute

/-- Whether the pattern begins with a stretch from the root. -/
def hasLeadingStretch (p : Pattern) : Bool :=
  p.base.isRoot && p.components.head?.any (·.isStretch)

/-- Whether the pattern ends in a stretch. -/
def hasTrailingStretch (p : Pattern) : Bool :=
  !p.isProperty && p.components.getLast?.any (·.isStretch)

/-- The predicates of the components, in order. -/
def conditions (p : Pattern) : List Predicate :=
  p.components.filterMap (·.condition?)

end Pattern

end PathSets
