import PathSets.Predicate.Text
import PathSets.Text.Blank
import PathSets.Text.Stop
import PathSets.Text.Walk

/-!
# Reading predicates

A predicate is read by levels, loosest first: `or`, `and`, juxtaposition, `not`,
and then a call or a predicate in parentheses.  Each connective takes operands
of the next tighter level and groups to the left (`chain`).  Words are separated
by blanks, which count for nothing else.

Two limits keep trees and readers shallow: no tree is deeper than `maxDepth`, and
no more than `maxDepth` groups, predicates in parentheses, are open at any place.
The reader for `n` open groups is defined from the reader for one fewer, so the
second limit holds by construction.  The parentheses of a call do not count: there
may be one more open than groups.
-/

namespace PathSets

/-- Greatest depth of a tree, and greatest number of open groups. -/
def maxDepth : Nat := 64

/-- Why a text is no predicate. -/
inductive PredicateFault where
  | empty
  | trailing
  | tooDeep
  | expectedClose
  | expectedName
  | expectedComma
  | integer
  | expectedValue
  | unterminatedString
  deriving DecidableEq, Repr

instance : Fault PredicateFault where
  message
    | .empty => "empty predicate expression"
    | .trailing => "unexpected text in predicate expression"
    | .tooDeep => "predicate expression nested too deeply"
    | .expectedClose => "expected ')' in predicate expression"
    | .expectedName => "expected predicate function name"
    | .expectedComma => "expected ',' or ')' in argument list"
    | .integer => "invalid integer argument"
    | .expectedValue => "expected argument value"
    | .unterminatedString => "unterminated string argument"

/-- What follows `front` in a text that begins with it. -/
def after? : (front text : List Char) → Option (List Char)
  | [], text => some text
  | _ :: _, [] => none
  | f :: front, c :: text => if f = c then after? front text else none

/-- What follows the keyword if it is the next word of the text. -/
def keyword? (word : String) (text : List Char) : Option (List Char) :=
  (after? word.toList (skipBlanks text)).filter fun rest => !rest.head?.any isNameChar

/-! ## Calls and their arguments -/

namespace Value

/-- Reads a string after its opening quote.  A backslash makes the next character
stand for itself. -/
def readQuoted : List Char → Option (List Char × List Char)
  | [] => none
  | '"' :: rest => some ([], rest)
  | '\\' :: c :: rest => (readQuoted rest).map fun (text, rest) => (c :: text, rest)
  | '\\' :: [] => none
  | c :: rest => (readQuoted rest).map fun (text, rest) => (c :: text, rest)

/-- The integer that an optional sign and digits spell, if it has 64 bits. -/
def ofDigits? (negative : Bool) (digits : List Char) : Option Int64 :=
  if digits.isEmpty then none
  else
    let magnitude : Int := Nat.ofDigitChars 10 digits 0
    let value := if negative then -magnitude else magnitude
    if Int64.minValue.toInt ≤ value ∧ value ≤ Int64.maxValue.toInt then some (Int64.ofInt value)
    else none

/-- Reads the digits of an integer.  A fault lies at `start`, the beginning of the
number with its sign. -/
def readNumber (start : List Char) (negative : Bool) (text : List Char) :
    Reading PredicateFault (Value × List Char) :=
  match ofDigits? negative (text.takeWhile Char.isDigit) with
  | some n => .ok (.number n, text.dropWhile Char.isDigit)
  | none => .error ⟨.integer, start⟩

/-- Reads a value: a quoted text, an integer, `true`, `false` or a bare word. -/
def read (text : List Char) : Reading PredicateFault (Value × List Char) :=
  match text with
  | '"' :: rest =>
    match readQuoted rest with
    | some (value, rest) => .ok (.word (String.ofList value), rest)
    | none => .error ⟨.unterminatedString, text⟩
  | '-' :: rest => readNumber text true rest
  | c :: rest =>
    if c.isDigit then readNumber text false (c :: rest)
    else
      match leadingWord? (c :: rest) with
      | none => .error ⟨.expectedValue, text⟩
      | some (found, rest) =>
        if found = "true".toList then .ok (.truth true, rest)
        else if found = "false".toList then .ok (.truth false, rest)
        else .ok (.word (String.ofList found), rest)
  | [] => .error ⟨.expectedValue, text⟩

end Value

section Readers

variable {m : Type → Type} [Monad m] [Walk (Stop PredicateFault) m]

namespace Argument

/-- Reads a value without keyword. -/
def readPlain (text : List Char) : Reading PredicateFault (Argument × List Char) := do
  let (value, rest) ← Value.read text
  return ({ value }, rest)

/-- Reads an argument in parentheses, which may have a keyword. -/
def read (text : List Char) : Reading PredicateFault (Argument × List Char) :=
  match leadingWord? text with
  | some (word, '=' :: rest) => do
    let (value, rest) ← Value.read rest
    return ({ keyword := some (String.ofList word), value }, rest)
  | _ => readPlain text

/-- Reads the arguments after a colon, for as long as commas join them.  There are
at most as many as `limit`, the length of the text. -/
def readColon : (limit : Nat) → List Char → Reading PredicateFault (List Argument × List Char)
  | 0, text => .error ⟨.expectedValue, text⟩
  | limit + 1, text => do
    let (arg, rest) ← readPlain text
    match rest with
    | ',' :: rest =>
      let (args, rest) ← readColon limit rest
      return (arg :: args, rest)
    | rest => return ([arg], rest)

/-- Reads the arguments up to the closing parenthesis, of which there is at least
one. -/
def readParen : (limit : Nat) → List Char → m (List Argument × List Char)
  | 0, text => Walk.stop ⟨.expectedValue, text⟩
  | limit + 1, text => do
    let (arg, rest) ← Walk.lift (read (skipBlanks text))
    match skipBlanks rest with
    | ',' :: rest =>
      let (args, rest) ← readParen limit rest
      return (arg :: args, rest)
    | ')' :: rest =>
      Walk.pass (.closing .arguments)
      return ([arg], rest)
    | rest => Walk.stop ⟨.expectedComma, rest⟩

end Argument

namespace Call

/-- Reads a call.  What follows the name decides how it is written. -/
def read (text : List Char) : m (Call × List Char) :=
  match leadingWord? text with
  | none => Walk.stop ⟨.expectedName, text⟩
  | some (word, rest) =>
    let name := String.ofList word
    if isReservedWord word then Walk.stop ⟨.expectedName, text⟩
    else
      match rest with
      | ':' :: rest => do
        let (args, rest) ← Walk.lift (Argument.readColon (rest.length + 1) rest)
        return ({ style := .colon, name, args }, rest)
      | '(' :: rest => do
        Walk.pass (.opening .arguments)
        match skipBlanks rest with
        | ')' :: rest =>
          Walk.pass (.closing .arguments)
          return ({ style := .paren, name }, rest)
        | rest =>
          let (args, rest) ← Argument.readParen (rest.length + 1) rest
          return ({ style := .paren, name, args }, rest)
      | rest => return ({ name }, rest)

end Call

/-! ## Levels -/

namespace Connective

/-- Where the right operand begins, if the text goes on with this connective.
Juxtaposition goes on unless the text ends, a parenthesis closes or another
connective comes. -/
def joint? (op : Connective) (text : List Char) : Option (List Char) :=
  match op with
  | .or => keyword? "or" text
  | .and => keyword? "and" text
  | .juxtaposition =>
    let rest := skipBlanks text
    if rest.isEmpty || rest.head? == some ')' || (keyword? "and" rest).isSome ||
        (keyword? "or" rest).isSome then
      none
    else
      some rest

end Connective

namespace Predicate

/-- A predicate that has been read, and a bound on its depth. -/
structure Parsed where
  tree : Predicate
  depth : Nat

/-- Reads on from a first operand for as long as the connective comes. -/
def chain (op : Connective) (operand : List Char → m (Parsed × List Char)) :
    (limit : Nat) → Parsed → List Char → m (Parsed × List Char)
  | 0, first, text => return (first, text)
  | limit + 1, first, text =>
    match op.joint? text with
    | none => return (first, text)
    | some start => do
      let (next, rest) ← operand start
      let depth := max first.depth next.depth + 1
      if depth > maxDepth then Walk.stop ⟨.tooDeep, start⟩
      else chain op operand limit ⟨.binary op first.tree next.tree, depth⟩ rest

/-- Reads operands joined by one connective. -/
def readChain (op : Connective) (operand : List Char → m (Parsed × List Char))
    (text : List Char) : m (Parsed × List Char) := do
  let (first, rest) ← operand text
  chain op operand rest.length first rest

/-- The number of leading `not`s, and what follows them. -/
def countNots : (limit : Nat) → List Char → Nat × List Char
  | 0, text => (0, text)
  | limit + 1, text =>
    match keyword? "not" text with
    | none => (0, text)
    | some rest =>
      let (count, rest) := countNots limit rest
      (count + 1, rest)

/-- The predicate with a number of `not`s before it. -/
def negate (count : Nat) (p : Predicate) : Predicate :=
  Nat.repeat not count p

/-- Reads a primary with any number of `not`s before it. -/
def readNegated (primary : List Char → m (Parsed × List Char))
    (text : List Char) : m (Parsed × List Char) := do
  let start := skipBlanks text
  let (count, rest) := countNots start.length start
  let (operand, rest) ← primary rest
  let depth := operand.depth + count
  if depth > maxDepth then Walk.stop ⟨.tooDeep, start⟩
  else return (⟨negate count operand.tree, depth⟩, rest)

/-- Reads a call, or a predicate in parentheses if one more may be opened. -/
def readPrimary (inner : Option (List Char → m (Parsed × List Char)))
    (text : List Char) : m (Parsed × List Char) :=
  match skipBlanks text with
  | '(' :: rest =>
    match inner with
    | none => Walk.stop ⟨.tooDeep, '(' :: rest⟩
    | some read => do
      Walk.pass (.opening .group)
      let (parsed, rest) ← read rest
      match skipBlanks rest with
      | ')' :: rest =>
        Walk.pass (.closing .group)
        return (parsed, rest)
      | rest => Walk.stop ⟨.expectedClose, rest⟩
  | start => do
    let (found, rest) ← Call.read start
    return (⟨.call found, 0⟩, rest)

/-- Reads all levels above a primary. -/
def readLevels (inner : Option (List Char → m (Parsed × List Char))) :
    List Char → m (Parsed × List Char) :=
  readChain .or (readChain .and (readChain .juxtaposition (readNegated (readPrimary inner))))

/-- Reads a predicate in which at most `nesting` groups are open at once. -/
def readNested : (nesting : Nat) → List Char → m (Parsed × List Char)
  | 0 => readLevels none
  | nesting + 1 => readLevels (some (readNested nesting))

/-- Reads a whole text as a predicate. -/
def read (text : List Char) : m Predicate :=
  if (skipBlanks text).isEmpty then Walk.stop ⟨.empty, []⟩
  else do
    let (parsed, rest) ← readNested maxDepth text
    let rest := skipBlanks rest
    if rest.isEmpty then return parsed.tree
    else Walk.stop ⟨.trailing, rest⟩

end Predicate

end Readers

/-- The predicate that a text spells. -/
def Predicate.parse (text : String) : Except (SyntaxError PredicateFault) Predicate :=
  (read text.toList).mapError (Stop.toError text)

end PathSets
