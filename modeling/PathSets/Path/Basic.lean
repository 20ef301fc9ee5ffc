/-!
# Paths

A path names a place in a tree of prims, each of which may have properties.  It
is empty, relative or absolute, goes down through named prims and may end in a
property.  A relative path may first go up, and `..` then stands among its
prims.

The predicates below sort paths by what they name.  They look at the three
fields only and do not ask whether the names are well formed.
-/

namespace PathSets

/-- Where a path starts. -/
inductive Anchor where
  | empty
  | relative
  | absolute
  deriving DecidableEq, Repr, Inhabited

/-- The element that goes up to the parent. -/
def upElement : String := ".."

/-- A path: where it starts, the prims it goes through, and the property it may
end in. -/
structure Path where
  anchor : Anchor := .empty
  prims : List String := []
  property : Option String := none
  deriving DecidableEq, Repr, Inhabited

namespace Path

/-- The empty path, which names nothing. -/
def empty : Path := {}

/-- The absolute root `/`. -/
def root : Path := { anchor := .absolute }

/-- The relative path `.`, which stays where it is. -/
def here : Path := { anchor := .relative }

def isEmpty (p : Path) : Bool :=
  p.anchor == .empty

def isAbsolute (p : Path) : Bool :=
  p.anchor == .absolute

/-- Whether the path ends in a property. -/
def isProperty (p : Path) : Bool :=
  p.property.isSome

def isRoot (p : Path) : Bool :=
  p.isAbsolute && p.prims.isEmpty && !p.isProperty

def isHere (p : Path) : Bool :=
  p.anchor == .relative && p.prims.isEmpty && !p.isProperty

/-- Whether the path ends in a named prim. -/
def isPrim (p : Path) : Bool :=
  !p.isProperty && p.prims.getLast?.any (· != upElement)

/-- The number of elements, the property included. -/
def elementCount (p : Path) : Nat :=
  p.prims.length + p.property.toList.length

/-- The name of the last element.  The relative path without elements is called
`.`, the others without elements have no name. -/
def name (p : Path) : String :=
  match p.property with
  | some property => property
  | none =>
    match p.prims.getLast? with
    | some prim => prim
    | none => if p.anchor = .relative then "." else ""

end Path

end PathSets
