import PathSets.Name

/-!
# Globs

A glob stands for many names: `*` for any characters, `?` for one, and a set in
brackets for one of its members or, after `!`, for one that is no member.
Everything else stands for itself.

`isGlob` accepts a text that has at least one wildcard and no character that
could not stand in a name.  Sets are not empty and do not nest.
-/

namespace PathSets

/-- How far a text has come with a bracket set. -/
inductive SetState where
  /-- No set is open. -/
  | outside
  /-- Right after `[`. -/
  | opened
  /-- Right after `[!`. -/
  | negated
  /-- After the first member. -/
  | inside
  deriving DecidableEq, Repr

/-- Whether a text goes on as a glob.  `wild` tells whether a wildcard has come
already. -/
def isGlobFrom (namespaced : Bool) : SetState → (wild : Bool) → List Char → Bool
  | state, wild, [] => wild && state == .outside
  | .outside, wild, c :: text =>
    if c == '[' then isGlobFrom namespaced .opened true text
    else if c == '*' || c == '?' then isGlobFrom namespaced .outside true text
    else if isNameChar c || (namespaced && c == ':') then isGlobFrom namespaced .outside wild text
    else false
  | .opened, wild, c :: text =>
    if c == '!' then isGlobFrom namespaced .negated wild text
    else if isNameChar c || c == '-' then isGlobFrom namespaced .inside wild text
    else false
  | .negated, wild, c :: text =>
    if isNameChar c || c == '-' then isGlobFrom namespaced .inside wild text
    else false
  | .inside, wild, c :: text =>
    if c == ']' then isGlobFrom namespaced .outside wild text
    else if isNameChar c || c == '-' then isGlobFrom namespaced .inside wild text
    else false

/-- Whether a text is a glob for names, which have colons if `namespaced` is set. -/
def isGlob (namespaced : Bool) (text : List Char) : Bool :=
  isGlobFrom namespaced .outside false text

end PathSets
