import PathSets.Path.Basic

/-!
# The order of paths

Paths are ordered by where they start, then by their prims as words over the
alphabet of names, then by their property, none before any.  Names are compared
by code point.  A path therefore comes directly before everything below it.
-/

namespace PathSets

/-- Empty paths come first, absolute paths last. -/
def Anchor.rank : Anchor → Nat
  | .empty => 0
  | .relative => 1
  | .absolute => 2

namespace Path

instance : Ord Path where
  compare := compareLex (compareOn (·.anchor.rank))
    (compareLex (compareOn (·.prims)) (compareOn (·.property)))

/-- The paths in ascending order; equal ones stay together. -/
def sort (paths : List Path) : List Path :=
  paths.mergeSort fun p q => (compare p q).isLE

/-- The number of different paths in a list. -/
def distinctCount (paths : List Path) : Nat :=
  paths.eraseDups.length

end Path

end PathSets
