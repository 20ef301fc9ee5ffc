import PathSets.Pattern.Edit
import PathSets.Predicate.Reader
import PathSets.Text.Stop

/-!
# Reading patterns

A pattern is read from left to right and built with the same appends that edit
patterns, so a name before the first wildcard goes into the base.  A relative
pattern first reads its leading `.` and `..` elements (`readLeading`), then both
kinds read elements (`readElements`): the text up to the next slash or dot that
stands outside all brackets and braces (`splitElement`).  An element is a name or
glob with a predicate in braces, and either may be missing.

What follows an element decides how to go on: a dot brings the property and ends
the pattern, two slashes are a stretch, and one slash only separates.
-/

namespace PathSets

/-- Why a text is no pattern. -/
inductive PatternFault where
  | empty
  | misplacedHere
  | emptyElement
  | misplacedPredicate
  | propertyNotLast
  | emptyPropertyName
  | noPropertyHere
  | tooManySlashes
  | trailingSlash
  | refused (reason : Refusal)
  | predicate (fault : PredicateFault)
  deriving DecidableEq, Repr

instance : Fault PatternFault where
  message
    | .empty => "empty pattern"
    | .misplacedHere => "misplaced '.' element"
    | .emptyElement => "empty path element"
    | .misplacedPredicate => "unterminated or misplaced predicate"
    | .propertyNotLast => "a property must be the final element"
    | .emptyPropertyName => "empty property name"
    | .noPropertyHere => "cannot append a property here"
    | .tooManySlashes => "too many '/' characters"
    | .trailingSlash => "trailing '/' in pattern"
    | .refused reason => reason.message
    | .predicate fault => Fault.message fault

namespace Pattern

/-! ## Elements -/

/-- What is open at a place in an element: a bracket set, braces, and within
braces a quoted text and a backslash. -/
structure Groups where
  bracket : Bool := false
  braces : Nat := 0
  quoted : Bool := false
  escaped : Bool := false
  deriving DecidableEq, Repr

namespace Groups

/-- Whether nothing is open. -/
def isClosed (g : Groups) : Bool :=
  !g.bracket && g.braces == 0 && !g.quoted

/-- What is open after one more character.  Brackets count outside braces only,
quotes within braces only. -/
def step (g : Groups) (c : Char) : Groups :=
  if g.quoted then
    if g.escaped then { g with escaped := false }
    else if c = '\\' then { g with escaped := true }
    else if c = '"' then { g with quoted := false }
    else g
  else if c = '"' && g.braces > 0 then { g with quoted := true }
  else if c = '{' then { g with braces := g.braces + 1 }
  else if c = '}' then { g with braces := g.braces - 1 }
  else if c = '[' && g.braces == 0 then { g with bracket := true }
  else if c = ']' && g.braces == 0 then { g with bracket := false }
  else g

end Groups

/-- Splits a text before the first slash or dot that stands outside all groups. -/
def splitElementFrom (g : Groups) : List Char → List Char × List Char
  | [] => ([], [])
  | c :: text =>
    if g.isClosed && (c = '/' || c = '.') then ([], c :: text)
    else
      let (element, rest) := splitElementFrom (g.step c) text
      (c :: element, rest)

/-- Splits the first element from a text. -/
def splitElement (text : List Char) : List Char × List Char :=
  splitElementFrom {} text

/-- Separates an element into its name and its predicate.  `after` is the text that
follows the element. -/
def splitPredicate (element after : List Char) :
    Reading PatternFault (String × Option Predicate) :=
  let name := String.ofList (element.takeWhile (· != '{'))
  match element.dropWhile (· != '{') with
  | [] => .ok (name, none)
  | brace :: body =>
    if body.getLast? = some '}' then
      match Predicate.read body.dropLast with
      | .ok condition => .ok (name, some condition)
      | .error stop => .error (stop.within .predicate ('}' :: after))
    else .error ⟨.misplacedPredicate, brace :: body ++ after⟩

/-- The pattern after an append that began at `text`. -/
def accept (text : List Char) : Except Refused Pattern → Reading PatternFault Pattern
  | .ok p => .ok p
  | .error refused => .error ⟨.refused refused.error.reason, text⟩

/-- Reads the property at the end of a pattern. -/
def readProperty (p : Pattern) (text : List Char) : Reading PatternFault Pattern := do
  let (element, rest) := splitElement text
  if !rest.isEmpty then .error ⟨.propertyNotLast, rest⟩
  else
    let (name, condition) ← splitPredicate element []
    if name.isEmpty then .error ⟨.emptyPropertyName, text⟩
    else if !p.canAppendProperty name then .error ⟨.noPropertyHere, text⟩
    else accept text (p.appendProperty name condition)

/-- Adds the element that begins at `text`.  Only a dot may follow an empty one, and
only where no slash came before. -/
def readElement (p : Pattern) (afterSlash : Bool) (text element rest : List Char) :
    Reading PatternFault Pattern :=
  if element.isEmpty then
    if rest.head? != some '.' || afterSlash then .error ⟨.emptyElement, text⟩ else .ok p
  else do
    let (name, condition) ← splitPredicate element rest
    accept text (p.appendChild name condition)

/-- Reads elements to the end of the text.  There are at most as many as `limit`,
the length of the text. -/
def readElements : (limit : Nat) → Pattern → (afterSlash : Bool) → List Char →
    Reading PatternFault Pattern
  | _, p, _, [] => .ok p
  | 0, _, _, text => .error ⟨.emptyElement, text⟩
  | limit + 1, p, afterSlash, text => do
    let (element, rest) := splitElement text
    let p ← readElement p afterSlash text element rest
    match rest with
    | '.' :: property => readProperty p property
    | '/' :: '/' :: rest =>
      if rest.head? = some '/' then .error ⟨.tooManySlashes, rest⟩
      else readElements limit p.appendStretch false rest
    | '/' :: next =>
      if next.isEmpty then .error ⟨.trailingSlash, rest⟩ else readElements limit p true next
    | _ => .ok p

/-- Reads what follows a leading element: two slashes end the leading elements, one
slash goes on with them through `next`. -/
def readAfterLeading (next : Pattern → List Char → Reading PatternFault Pattern)
    (p : Pattern) (text : List Char) : Reading PatternFault Pattern :=
  match text with
  | '/' :: '/' :: rest => readElements rest.length p.appendStretch false rest
  | '/' :: rest => next p rest
  | _ => .ok p

/-- Whether an element ends at the beginning of this text. -/
def endsElement (text : List Char) : Bool :=
  text.head?.all (· == '/')

/-- Reads the leading `.` and `..` elements of a relative pattern, and then the
others.  `.` may only come first. -/
def readLeading : (limit : Nat) → Pattern → (first : Bool) → List Char →
    Reading PatternFault Pattern
  | _, p, _, [] => .ok p
  | 0, _, _, text => .error ⟨.emptyElement, text⟩
  | limit + 1, p, first, text =>
    match after? ['.', '.'] text, after? ['.'] text with
    | some rest, _ =>
      if endsElement rest then do
        let p ← accept text (p.appendChild upElement none)
        readAfterLeading (fun p => readLeading limit p false) p rest
      else readElements text.length p (!first) text
    | none, some rest =>
      if endsElement rest then
        if first then readAfterLeading (fun p => readLeading limit p false) p rest
        else .error ⟨.misplacedHere, text⟩
      else readElements text.length p (!first) text
    | none, none => readElements text.length p (!first) text

/-- Reads a whole text as a pattern. -/
def read : List Char → Reading PatternFault Pattern
  | [] => .error ⟨.empty, []⟩
  | '/' :: '/' :: rest => readElements rest.length (ofPath .root).appendStretch false rest
  | '/' :: rest => readElements rest.length (ofPath .root) false rest
  | text => readLeading text.length (ofPath .here) true text

/-- The pattern that a text spells. -/
def parse (text : String) : Except (SyntaxError PatternFault) Pattern :=
  (read text.toList).mapError (·.toError text)

end Pattern

end PathSets
