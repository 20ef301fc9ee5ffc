import PathSets.Name
import PathSets.Path.Basic
import PathSets.Refusal

/-!
# The text of a path

`Path.write` spells a path: `/` before an absolute path, `/` between prims, `.`
before a property.  `Path.read` reads the text back element by element, and
`Path.parse` and `Path.text` are the same two between strings and paths.

A text may begin with `./`, which adds nothing, or go up with `..` any number of
times before its first name.  Only the last element may have a property, and
`.name` alone is a property of the place where a relative path starts.
-/

namespace PathSets.Path

/-- The names of the prims, separated by slashes. -/
def writePrims (prims : List String) : List Char :=
  ['/'].intercalate (prims.map String.toList)

/-- The written form of the property, if there is one. -/
def writeProperty : Option String → List Char
  | none => []
  | some name => '.' :: name.toList

/-- The written form of a path. -/
def write (p : Path) : List Char :=
  match p.anchor with
  | .empty => []
  | .absolute => '/' :: writePrims p.prims ++ writeProperty p.property
  | .relative =>
    if p.isHere then ['.'] else writePrims p.prims ++ writeProperty p.property

/-- The text of a path. -/
def text (p : Path) : String :=
  String.ofList p.write

/-- Adds an element that is neither `.` nor `..`.  It is a name, a name with a
property, or, where it is the only element, a property by itself. -/
def readNamed (p : Path) (alone last : Bool) (element : List Char) : Except Refusal Path :=
  let name := element.takeWhile (· != '.')
  let property? := (element.dropWhile (· != '.')).tail?
  if property?.isSome && !last then .error .propertyNotLast
  else if name.isEmpty && !(p.anchor == .relative && alone && property?.isSome) then
    .error .emptyPrimName
  else if !name.isEmpty && !isIdentifier name then .error (.primName (String.ofList name))
  else
    let p := if name.isEmpty then p else { p with prims := p.prims ++ [String.ofList name] }
    match property? with
    | none => .ok p
    | some property =>
      if isPropertyName property then .ok { p with property := some (String.ofList property) }
      else .error (.propertyName (String.ofList property))

/-- Adds the elements, of which the first one is the first of the whole path if
`first` is set. -/
def readElements (p : Path) (first : Bool) : List (List Char) → Except Refusal Path
  | [] => .ok p
  | element :: elements =>
    match element with
    | [] => .error .emptyElement
    | ['.'] =>
      if p.isAbsolute || !first then .error .misplacedHere
      else readElements p false elements
    | ['.', '.'] =>
      if p.isAbsolute || p.prims.any (· != upElement) then .error .misplacedUp
      else readElements { p with prims := p.prims ++ [upElement] } false elements
    | element => do
      let p ← readNamed p (first && elements.isEmpty) elements.isEmpty element
      readElements p false elements

/-- Reads a path that is not empty, after the slash of an absolute one. -/
def readBody (anchor : Anchor) (body : List Char) : Except Refusal Path :=
  if body.isEmpty then .ok { anchor }
  else readElements { anchor } true (body.splitOn '/')

/-- Reads a whole text as a path. -/
def read : List Char → Except Refusal Path
  | [] => .ok empty
  | '/' :: body => readBody .absolute body
  | text => readBody .relative text

/-- The path that a text spells. -/
def parse (text : String) : Except InvalidPath Path :=
  (read text.toList).mapError fun reason => ⟨text, reason⟩

end PathSets.Path
