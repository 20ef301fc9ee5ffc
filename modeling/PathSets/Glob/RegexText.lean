import PathSets.Glob.Basic
import PathSets.Glob.Regex

/-!
# Globs as regular expressions

A glob is matched through the regular expression that says the same: `*` becomes
`.*`, `?` becomes `.`, a set becomes a class, and every other character, being a
name character or a colon, stands for itself in both.

The sets of globs thereby get the finer points of classes: a `-` at either end is
a member, `--` takes characters away, and a range must not run backwards.  Which of
the regular expressions are accepted is for the engine to say.
-/

namespace PathSets.Glob

/-- The regular expression for a glob, or for the rest of one, without the
anchors. -/
def regexTextFrom : SetState → List Char → List Char
  | _, [] => []
  | .outside, c :: text =>
    if c == '[' then '[' :: regexTextFrom .opened text
    else if c == '*' then '.' :: '*' :: regexTextFrom .outside text
    else if c == '?' then '.' :: regexTextFrom .outside text
    else c :: regexTextFrom .outside text
  | .opened, c :: text =>
    if c == '!' then '^' :: regexTextFrom .negated text
    else if c == ']' then ']' :: regexTextFrom .outside text
    else c :: regexTextFrom .inside text
  | _, c :: text =>
    if c == ']' then ']' :: regexTextFrom .outside text
    else c :: regexTextFrom .inside text

/-- The text of the regular expression for a glob, which matches whole names. -/
def toRegexText (glob : List Char) : List Char :=
  "^(?:".toList ++ regexTextFrom .outside glob ++ ")$".toList

end PathSets.Glob
