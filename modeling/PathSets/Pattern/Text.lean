import PathSets.Path.Text
import PathSets.Pattern.Basic
import PathSets.Predicate.Text

/-!
# The text of a pattern

The base comes first, then the components, separated by slashes.  A stretch is
written `//`, which separates its neighbours as well, and a dot comes before the
property.  Two bases are written only where nothing else shows them: the root is
`/` when it stands alone, and `.` is omitted before a component that is no
stretch.
-/

namespace PathSets

/-- The written form of a component that is no stretch. -/
def Component.write (c : Component) : List Char :=
  c.nameText.toList ++
    match c.condition? with
    | none => []
    | some condition => '{' :: condition.write ++ ['}']

namespace Pattern

/-- The written form of the components, the first one after `separator`. -/
def writeComponents (isProperty : Bool) (separator : List Char) : List Component → List Char
  | [] => []
  | .stretch :: components => '/' :: '/' :: writeComponents isProperty [] components
  | c :: components =>
    (if isProperty && components.isEmpty then ['.'] else separator) ++ c.write ++
      writeComponents isProperty ['/'] components

/-- The written form of the base. -/
def writeBase (p : Pattern) : List Char :=
  if p.base.isRoot then if p.components.isEmpty then ['/'] else []
  else if p.base.isHere then if p.components.head?.all (·.isStretch) then ['.'] else []
  else p.base.write

/-- The written form of a pattern. -/
def write (p : Pattern) : List Char :=
  p.writeBase ++ writeComponents p.isProperty (if p.base.isHere then [] else ['/']) p.components

/-- The text of a pattern. -/
def text (p : Pattern) : String :=
  String.ofList p.write

end Pattern

end PathSets
