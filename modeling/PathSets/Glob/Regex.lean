/-!
# Anchored regular expressions

The regular expressions that globs need: a sequence of characters, dots and
bracket classes, any of which a star may repeat, between `^(?:` and `)$`.

In a class, `x-y` is a range, a `^` in front turns the class around, and `--`
takes the members on its right away from those on its left.  A `-` that neither
joins two characters nor stands beside another `-` is a member, and so is every
`-` in front of all other members.  A range that runs backwards is an error.

`Regex.read` reads the text, `Regex.accepts` decides whether a regular expression
matches a name.  It works from the end of the expression to its beginning and
keeps, for each suffix of the name, whether the part of the expression seen so
far matches that suffix.

A `RegexEngine` is what the program relies on: it accepts a text or refuses it, and
matches names by the texts it accepts.  `RegexEngine.basic` reads and matches as
said above and accepts all that can be read.  Other engines have limits, and refuse
regular expressions that are too large for them.
-/

namespace PathSets

/-- The characters from `first` to `last`. -/
structure CharRange where
  first : Char
  last : Char
  deriving DecidableEq, Repr

def CharRange.contains (range : CharRange) (c : Char) : Bool :=
  range.first ≤ c && c ≤ range.last

/-- The contents of a bracket class: members, and groups of characters that are
taken away from them. -/
structure CharClass where
  negated : Bool
  members : List CharRange
  removed : List (List CharRange)
  deriving DecidableEq, Repr

namespace CharClass

/-- Whether the class matches a character. -/
def contains (set : CharClass) (c : Char) : Bool :=
  set.negated ^^
    (set.members.any (·.contains c) && set.removed.all fun group => !group.any (·.contains c))

/-- The characters up to the closing bracket: the members, the groups taken away,
and the text after the bracket. -/
def readMembers : List Char → Option (List CharRange × List (List CharRange) × List Char)
  | [] => none
  | ']' :: rest => some ([], [], rest)
  | '-' :: '-' :: rest =>
    (readMembers rest).map fun (group, groups, rest) => ([], group :: groups, rest)
  | c :: '-' :: d :: rest =>
    if d == ']' || d == '-' then
      (readMembers ('-' :: d :: rest)).map fun (group, more) => (⟨c, c⟩ :: group, more)
    else if c ≤ d then
      (readMembers rest).map fun (group, more) => (⟨c, d⟩ :: group, more)
    else
      none
  | c :: rest => (readMembers rest).map fun (group, more) => (⟨c, c⟩ :: group, more)

/-- The characters up to the closing bracket, of which every leading `-` is a
member. -/
def readLeading : List Char → Option (List CharRange × List (List CharRange) × List Char)
  | '-' :: rest => (readLeading rest).map fun (group, more) => (⟨'-', '-'⟩ :: group, more)
  | text => readMembers text

/-- Reads a class after its opening bracket. -/
def read (text : List Char) : Option (CharClass × List Char) :=
  match text with
  | '^' :: rest =>
    (readLeading rest).map fun (members, removed, rest) => (⟨true, members, removed⟩, rest)
  | rest =>
    (readLeading rest).map fun (members, removed, rest) => (⟨false, members, removed⟩, rest)

end CharClass

/-- What matches one character. -/
inductive Atom where
  | char (c : Char)
  /-- Any character but a line feed. -/
  | any
  | set (set : CharClass)
  deriving DecidableEq, Repr

/-- Whether the atom matches a character. -/
def Atom.accepts : Atom → Char → Bool
  | char c, d => c == d
  | any, d => d != '\n'
  | set s, d => s.contains d

/-- An atom that stands once, or any number of times. -/
structure Piece where
  atom : Atom
  starred : Bool
  deriving DecidableEq, Repr

/-- A regular expression for whole names: its pieces in order. -/
abbrev Regex : Type :=
  List Piece

namespace Regex

/-- Reads one atom. -/
def readAtom (text : List Char) : Option (Atom × List Char) :=
  match text with
  | [] => none
  | '[' :: rest => (CharClass.read rest).map fun (set, rest) => (.set set, rest)
  | '.' :: rest => some (.any, rest)
  | c :: rest => some (.char c, rest)

/-- Reads pieces up to the closing `)$`, of which there are at most as many as
`limit`, the length of the text. -/
def readPieces : (limit : Nat) → List Char → Option Regex
  | _, [')', '$'] => some []
  | 0, _ => none
  | limit + 1, text => do
    let (atom, rest) ← readAtom text
    match rest with
    | '*' :: rest => return ⟨atom, true⟩ :: (← readPieces limit rest)
    | rest => return ⟨atom, false⟩ :: (← readPieces limit rest)

/-- Reads an anchored regular expression. -/
def read (text : List Char) : Option Regex :=
  match text with
  | '^' :: '(' :: '?' :: ':' :: rest => readPieces rest.length rest
  | _ => none

/-- For each suffix of a text, whether it is empty. -/
def emptySuffixes : List Char → List Bool
  | [] => [true]
  | _ :: text => false :: emptySuffixes text

/-- For each suffix of a text, whether one character that the atom accepts and then
a suffix marked in `marks` make it up. -/
def stepOnce (atom : Atom) : List Char → List Bool → List Bool
  | c :: text, _ :: marks => (atom.accepts c && marks.headD false) :: stepOnce atom text marks
  | _, _ => [false]

/-- For each suffix of a text, whether any number of characters that the atom
accepts and then a suffix marked in `marks` make it up. -/
def stepStarred (atom : Atom) : List Char → List Bool → List Bool
  | c :: text, mark :: marks =>
    let next := stepStarred atom text marks
    (mark || (atom.accepts c && next.headD false)) :: next
  | _, marks => marks

/-- For each suffix of a text, whether the regular expression matches it. -/
def marks (text : List Char) : Regex → List Bool
  | [] => emptySuffixes text
  | piece :: pieces =>
    if piece.starred then stepStarred piece.atom text (marks text pieces)
    else stepOnce piece.atom text (marks text pieces)

/-- Whether the regular expression matches a whole text. -/
def accepts (r : Regex) (text : List Char) : Bool :=
  (r.marks text).headD false

end Regex

/-- What accepts the texts of regular expressions and matches names by them. -/
structure RegexEngine where
  /-- The matcher for a text, if it is accepted. -/
  compile? : List Char → Option (List Char → Bool)

/-- The engine that accepts every regular expression that can be read. -/
def RegexEngine.basic : RegexEngine :=
  ⟨fun text => (Regex.read text).map Regex.accepts⟩

end PathSets
