import PathSets.Glob.Basic
import PathSets.Path.Edit
import PathSets.Pattern.Text

/-!
# Building patterns

Patterns grow at their end: by a child, by a property, by a stretch.  A name
appended while there are no components goes into the base, and anything appended
to the empty pattern makes it relative first.  No two stretches stand side by
side, and nothing follows a property.

An append that is refused tells why and also gives the pattern that it leaves
behind, because making an empty pattern relative comes before the last checks.
-/

namespace PathSets

/-- Whether a text is a name, a glob, or neither. -/
inductive Shape where
  | literal
  | glob
  deriving DecidableEq, Repr

/-- What a text means as a child: nothing, `..` and a prim name are literal. -/
def childShape? (text : String) : Option Shape :=
  if text.isEmpty || isIdentifier text.toList || text == upElement then some .literal
  else if isGlob false text.toList then some .glob
  else none

/-- What a text means as a property. -/
def propertyShape? (text : String) : Option Shape :=
  if isPropertyName text.toList then some .literal
  else if isGlob true text.toList then some .glob
  else none

/-- The component for a text and a predicate, neither of which makes a stretch. -/
def Component.ofShape (shape : Shape) (text : String) (condition : Option Predicate) : Component :=
  match shape with
  | .literal => .named text condition
  | .glob => .glob text condition

namespace Pattern

/-- A refused append, and the pattern that it leaves behind. -/
structure Refused where
  error : InvalidPath
  pattern : Pattern
  deriving Repr

/-- The pattern with a relative base in place of an empty one. -/
def grounded (p : Pattern) : Pattern :=
  if p.base.isEmpty then { p with base := .here } else p

/-- Adds a stretch, unless the pattern ends in a stretch or a property. -/
def appendStretch (p : Pattern) : Pattern :=
  if p.isProperty || p.hasTrailingStretch then p
  else { p.grounded with components := p.components ++ [.stretch] }

def canAppendChild (p : Pattern) (text : String) : Bool :=
  !p.isProperty && (childShape? text).isSome

/-- Adds a child: a name, a glob, `..`, a bare predicate, or a stretch if there is
neither text nor predicate. -/
def appendChild (p : Pattern) (text : String) (condition : Option Predicate) :
    Except Refused Pattern :=
  if p.isProperty then .error ⟨⟨p.text, .childOfPropertyPattern⟩, p⟩
  else
    match childShape? text with
    | none => .error ⟨⟨text, .childText⟩, p⟩
    | some shape =>
      let p := p.grounded
      match condition with
      | none =>
        if text.isEmpty then .ok p.appendStretch
        else if p.components.isEmpty && shape == .literal then
          match p.base.child text with
          | .ok base => .ok { p with base }
          | .error error => .error ⟨error, p⟩
        else if text == upElement then .error ⟨⟨p.text, .upInPattern⟩, p⟩
        else .ok { p with components := p.components ++ [.ofShape shape text none] }
      | some condition =>
        if text.isEmpty then .ok { p with components := p.components ++ [.bare condition] }
        else if text == upElement then .error ⟨⟨p.text, .upInPattern⟩, p⟩
        else .ok { p with components := p.components ++ [.ofShape shape text (some condition)] }

def canAppendProperty (p : Pattern) (text : String) : Bool :=
  !p.isProperty && !(p.base.isRoot && p.components.isEmpty) && (propertyShape? text).isSome

/-- The pattern with any prim after a stretch at its end, so that a property can
follow. -/
def closed (p : Pattern) : Pattern :=
  if p.hasTrailingStretch then { p with components := p.components ++ [.glob "*" none] } else p

/-- Adds a property, a name or a glob, and so ends the pattern. -/
def appendProperty (p : Pattern) (text : String) (condition : Option Predicate) :
    Except Refused Pattern :=
  match propertyShape? text with
  | none => .error ⟨⟨p.text ++ "." ++ text, .propertyOfPattern⟩, p⟩
  | some shape =>
    if p.canAppendProperty text then
      let p := p.grounded.closed
      if p.components.isEmpty && condition.isNone && shape == .literal then
        match p.base.withProperty text with
        | .ok base => .ok { p with base, isProperty := true }
        | .error error => .error ⟨error, p⟩
      else
        .ok { p with
          components := p.components ++ [.ofShape shape text condition], isProperty := true }
    else .error ⟨⟨p.text ++ "." ++ text, .propertyOfPattern⟩, p⟩

/-- Removes a stretch at the end. -/
def removeTrailingStretch (p : Pattern) : Pattern :=
  if p.hasTrailingStretch then { p with components := p.components.dropLast } else p

/-- Removes the last component, if there is one.  The base stays. -/
def removeTrailingComponent (p : Pattern) : Pattern :=
  if p.components.isEmpty then p
  else { p with components := p.components.dropLast, isProperty := false }

/-- Replaces the base.  Nothing can follow a base that is a property. -/
def setBase (p : Pattern) (base : Path) : Pattern :=
  if base.isProperty then { base, components := [], isProperty := true }
  else if p.components.isEmpty then { base, components := [], isProperty := false }
  else { p with base }

/-- The pattern that matches one path only. -/
def ofPath (base : Path) : Pattern :=
  empty.setBase base

end Pattern

end PathSets
