/-!
# Names

Prims are named by identifiers, properties by identifiers joined with colons.
Both are ASCII only: a letter or underscore, then letters, digits and
underscores.
-/

namespace PathSets

/-- Whether a name may begin with this character. -/
def isNameStart (c : Char) : Bool :=
  c.isAlpha || c == '_'

/-- Whether this character may stand in a name. -/
def isNameChar (c : Char) : Bool :=
  c.isAlphanum || c == '_'

/-- A prim name: a name start followed by name characters. -/
def isIdentifier : List Char → Bool
  | [] => false
  | c :: text => isNameStart c && text.all isNameChar

/-- A property name: identifiers joined with colons. -/
def isPropertyName (text : List Char) : Bool :=
  (text.splitOn ':').all isIdentifier

/-- The longest identifier that a text begins with, and what follows it. -/
def leadingWord? : List Char → Option (List Char × List Char)
  | [] => none
  | c :: text =>
    if isNameStart c then
      some (c :: text.takeWhile isNameChar, text.dropWhile isNameChar)
    else
      none

theorem isNameChar_of_isNameStart {c : Char} (h : isNameStart c = true) :
    isNameChar c = true := by
  simp only [isNameStart, isNameChar, Char.isAlphanum, Bool.or_eq_true] at *
  rcases h with h | h
  · exact Or.inl (Or.inl h)
  · exact Or.inr h

end PathSets
