/-!
# Refusals

Why a text is no path, and why an edit of a path or of a pattern is refused.
Each reason has its wording in `Refusal.message` and nowhere else.
-/

namespace PathSets

/-- Why something is not accepted as a path or as part of one. -/
inductive Refusal where
  | emptyElement
  | misplacedHere
  | misplacedUp
  | propertyNotLast
  | emptyPrimName
  | primName (name : String)
  | propertyName (name : String)
  | rootProperty
  | childOfEmpty
  | childOfProperty
  | upFromRoot
  | propertyOfNoPrim
  | anchorNoPrim
  | upThroughAnchor (anchor : String)
  | childOfPropertyPattern
  | childText
  | upInPattern
  | propertyOfPattern
  deriving DecidableEq, Repr

/-- The refusal in words. -/
def Refusal.message : Refusal → String
  | .emptyElement => "empty path element"
  | .misplacedHere => "misplaced '.' element"
  | .misplacedUp => "'..' may only lead a relative path"
  | .propertyNotLast => "a property must be the final element"
  | .emptyPrimName => "empty prim name"
  | .primName name => s!"invalid prim name '{name}'"
  | .propertyName name => s!"invalid property name '{name}'"
  | .rootProperty => "the absolute root cannot have properties"
  | .childOfEmpty => "cannot append to the empty path"
  | .childOfProperty => "cannot append a child to a property path"
  | .upFromRoot => "cannot ascend above the absolute root"
  | .propertyOfNoPrim => "properties can only be appended to prim paths"
  | .anchorNoPrim => "anchor must be an absolute prim path"
  | .upThroughAnchor anchor => s!"ascends above the absolute root from <{anchor}>"
  | .childOfPropertyPattern => "cannot append a child to a property pattern"
  | .childText => "invalid prim name or glob"
  | .upInPattern => "'..' may only lead a relative pattern"
  | .propertyOfPattern => "cannot append this property to the pattern"

/-- The text of the path that was refused, or to which an edit was refused, and
the reason. -/
structure InvalidPath where
  path : String
  reason : Refusal
  deriving DecidableEq, Repr

/-- The error in words. -/
def InvalidPath.message (error : InvalidPath) : String :=
  s!"Invalid path <{error.path}>: {error.reason.message}"

end PathSets
