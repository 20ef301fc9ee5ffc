import PathSets.Path.Text

/-!
# Moving between paths

The steps between a path and its neighbours (`parent?`, `child`,
`withProperty`), the paths that lead to it (`isWithin`, `lineage`), and the two
changes of viewpoint: `anchorAt` makes a relative path absolute, `rebase` moves
a path from below one path to below another.
-/

namespace PathSets.Path

/-- The path without its last element; none if there is no element. -/
def parent? (p : Path) : Option Path :=
  if p.isProperty then some { p with property := none }
  else if p.prims.isEmpty then none
  else some { p with prims := p.prims.dropLast }

/-- Goes down to the named prim, or up if the name is `..`.  Going up removes a
name where there is one, and lengthens a relative path where there is none. -/
def child (p : Path) (name : String) : Except InvalidPath Path :=
  if p.isEmpty then .error ⟨name, .childOfEmpty⟩
  else if p.isProperty then .error ⟨p.text, .childOfProperty⟩
  else if name == upElement then
    if p.prims.getLast?.any (· != upElement) then .ok { p with prims := p.prims.dropLast }
    else if p.anchor == .relative then .ok { p with prims := p.prims ++ [upElement] }
    else .error ⟨p.text, .upFromRoot⟩
  else if isIdentifier name.toList then .ok { p with prims := p.prims ++ [name] }
  else .error ⟨name, .primName name⟩

/-- The named property of a prim, or of `.`. -/
def withProperty (p : Path) (name : String) : Except InvalidPath Path :=
  if !(p.isPrim || p.isHere) then .error ⟨p.text, .propertyOfNoPrim⟩
  else if isPropertyName name.toList then .ok { p with property := some name }
  else .error ⟨name, .propertyName name⟩

/-- Whether `top` is the path itself or a path that leads to it.  The empty path
leads nowhere and nothing leads to it. -/
def isWithin (p top : Path) : Bool :=
  if p.isEmpty || top.isEmpty || p.anchor != top.anchor then false
  else if top.isProperty then p == top
  else top.prims.isPrefixOf p.prims

/-- The paths that lead to the path and end in an element, shortest first.  The
path itself is the last of them. -/
def lineage (p : Path) : List Path :=
  ((List.range p.prims.length).map fun i =>
      { anchor := p.anchor, prims := p.prims.take (i + 1) }) ++
    (if p.isProperty then [p] else [])

/-- Follows the prims of a relative path downwards from the prims of an absolute
one; none if it goes up further than that. -/
def descend : List String → List String → Option (List String)
  | start, [] => some start
  | start, name :: names =>
    if name == upElement then
      if start.isEmpty then none else descend start.dropLast names
    else descend (start ++ [name]) names

/-- Whether relative paths can be read from here: an absolute path that is no
property. -/
def isAnchor (p : Path) : Bool :=
  p.isAbsolute && !p.isProperty

/-- The absolute path that a relative path names as seen from `anchor`.  Other
paths stay as they are. -/
def anchorAt (p anchor : Path) : Except InvalidPath Path :=
  if p.anchor != .relative then .ok p
  else if !anchor.isAnchor then .error ⟨anchor.text, .anchorNoPrim⟩
  else
    match descend anchor.prims p.prims with
    | none => .error ⟨p.text, .upThroughAnchor anchor.text⟩
    | some prims =>
      if prims.isEmpty && p.isProperty then .error ⟨p.text, .rootProperty⟩
      else .ok { anchor := .absolute, prims, property := p.property }

/-- The path with `old` at its front replaced by `new`.  A path that is not
within `old` stays as it is, and so does one for which `new` followed by the rest
would give an element to a property or a property to nothing. -/
def rebase (p old new : Path) : Path :=
  if new.isEmpty || !p.isWithin old then p
  else if old.isProperty then new
  else
    let rest := p.prims.drop old.prims.length
    if new.isProperty && (!rest.isEmpty || p.isProperty) then p
    else if new.prims.isEmpty && rest.isEmpty && p.isProperty then p
    else
      { anchor := new.anchor
        prims := new.prims ++ rest
        property := p.property.or new.property }

end PathSets.Path
