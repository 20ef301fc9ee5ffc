/-!
# Walks along a text

A reader that enters parentheses walks along its text: it may stop with an error,
and it passes parentheses on its way.  Such readers are written over any `Walk`, a
monad with these two abilities.

`Except` is the walk that keeps no account of what it passes, and it is the one
that is meant where nothing else is said.  A walk that keeps one makes the same
reader report which parentheses it has open.
-/

namespace PathSets

/-- What a pair of parentheses encloses. -/
inductive Enclosure where
  /-- An operand. -/
  | group
  /-- The arguments of a call. -/
  | arguments
  deriving DecidableEq, Repr

/-- A parenthesis that a reader passes. -/
inductive Paren where
  | opening (around : Enclosure)
  | closing (around : Enclosure)
  deriving DecidableEq, Repr

/-- Monads for readers that may stop with an error and pass parentheses. -/
class Walk (ε : outParam Type) (m : Type → Type) where
  /-- A part that passes no parenthesis. -/
  lift {α : Type} : Except ε α → m α
  pass : Paren → m Unit

/-- Stops with an error. -/
def Walk.stop {ε α : Type} {m : Type → Type} [Walk ε m] (error : ε) : m α :=
  lift (.error error)

@[default_instance]
instance {ε : Type} : Walk ε (Except ε) where
  lift x := x
  pass _ := .ok ()

end PathSets
