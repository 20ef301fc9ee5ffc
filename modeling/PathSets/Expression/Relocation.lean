import PathSets.Expression.Basic
import PathSets.Path.Edit
import PathSets.Pattern.Edit

/-!
# Moving expressions

`anchorAt` makes an expression absolute: the bases of its patterns and the paths
of its references are read from one place.  `rebase` moves an expression from
below one path to below another.

A pattern whose base became a property would lose its components.  `rebase`
leaves such a pattern as it is.
-/

namespace PathSets

namespace Pattern

/-- The pattern with its base read from `anchor`. -/
def anchorAt (p : Pattern) (anchor : Path) : Except InvalidPath Pattern := do
  if p.isAbsolute then return p
  else return p.setBase (← p.base.anchorAt anchor)

/-- The pattern with `old` at the front of its base replaced by `new`. -/
def rebase (p : Pattern) (old new : Path) : Pattern :=
  let base := p.base.rebase old new
  if base.isProperty && !p.components.isEmpty then p else p.setBase base

end Pattern

namespace Leaf

/-- The leaf as read from `anchor`. -/
def anchorAt (anchor : Path) : Leaf → Except InvalidPath Leaf
  | pattern p => do return pattern (← p.anchorAt anchor)
  | reference r => do return reference { r with path := ← r.path.anchorAt anchor }

/-- The leaf with `old` at the front of its path replaced by `new`. -/
def rebase (old new : Path) : Leaf → Leaf
  | pattern p => pattern (p.rebase old new)
  | reference r => reference { r with path := r.path.rebase old new }

end Leaf

namespace Expression

/-- The expression as read from the absolute prim path `anchor`. -/
def anchorAt (e : Expression) (anchor : Path) : Except InvalidPath Expression :=
  if !anchor.isAnchor then .error ⟨anchor.text, .anchorNoPrim⟩
  else e.mapLeavesM fun leaf => do return of (.leaf (← leaf.anchorAt anchor))

/-- The expression with `old` at the front of every pattern and reference path
replaced by `new`. -/
def rebase (e : Expression) (old new : Path) : Expression :=
  e.mapLeaves fun leaf => of (.leaf (leaf.rebase old new))

end Expression

end PathSets
