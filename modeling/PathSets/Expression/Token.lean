import PathSets.Text.Blank
import PathSets.Text.Stop

/-!
# Tokens

The text of an expression is a sequence of operators, parentheses and literals,
with blanks between them.  A literal is a pattern or, if it begins with `%`, a
reference.  It goes on to the next blank or operator that stands outside all
groups; a group is what stands in brackets or braces, and in braces a quoted text
hides everything but its closing quote.  Groups do not nest.

`Token.scan` fails only if a group is still open at the end.
-/

namespace PathSets

inductive TokenKind where
  | pattern
  | reference
  | complement
  | intersection
  | difference
  | union
  | openParen
  | closeParen
  deriving DecidableEq, Repr

/-- A token: its kind, its characters and its byte offset. -/
structure Token where
  kind : TokenKind
  chars : List Char
  offset : Nat
  deriving DecidableEq, Repr

/-- The kind of token that a single character makes. -/
def operatorKind? (c : Char) : Option TokenKind :=
  if c = '~' then some .complement
  else if c = '&' then some .intersection
  else if c = '-' then some .difference
  else if c = '+' ∨ c = '|' then some .union
  else if c = '(' then some .openParen
  else if c = ')' then some .closeParen
  else none

/-- Whether a literal ends before this character. -/
def endsLiteral (c : Char) : Bool :=
  isBlank c || (operatorKind? c).isSome

/-- A group that is open, with the text from its first character on. -/
inductive OpenGroup where
  | bracket (start : List Char)
  | brace (start : List Char)
  /-- Within quotes within braces. -/
  | quote (start : List Char)
  /-- After a backslash within quotes. -/
  | escape (start : List Char)
  deriving DecidableEq, Repr

namespace OpenGroup

/-- The text from the first character of the group on. -/
def start : OpenGroup → List Char
  | bracket s => s
  | brace s => s
  | quote s => s
  | escape s => s

/-- The group after one more character; none if it closes. -/
def step (c : Char) : OpenGroup → Option OpenGroup
  | bracket s => if c = ']' then none else some (bracket s)
  | brace s => if c = '}' then none else if c = '"' then some (quote s) else some (brace s)
  | quote s =>
    if c = '\\' then some (escape s) else if c = '"' then some (brace s) else some (quote s)
  | escape s => some (quote s)

/-- The group that the first character of a text opens. -/
def ofText? : List Char → Option OpenGroup
  | '[' :: text => some (bracket ('[' :: text))
  | '{' :: text => some (brace ('{' :: text))
  | _ => none

end OpenGroup

namespace Token

/-- Splits a literal from a text.  If a group stays open, the result is the text
from its first character on. -/
def splitLiteral (group : Option OpenGroup) : List Char → Except (List Char) (List Char × List Char)
  | [] =>
    match group with
    | none => .ok ([], [])
    | some g => .error g.start
  | c :: text =>
    let next :=
      match group with
      | some g => g.step c
      | none => OpenGroup.ofText? (c :: text)
    if group.isNone && endsLiteral c then .ok ([], c :: text)
    else do
      let (literal, rest) ← splitLiteral next text
      return (c :: literal, rest)

/-- The tokens of a text that begins at byte `offset`.  There are at most as many
as `limit`, the length of the text. -/
def scanFrom : (limit offset : Nat) → List Char → Except (List Char) (List Token)
  | _, _, [] => .ok []
  | 0, _, _ => .ok []
  | limit + 1, offset, c :: text =>
    if isBlank c then scanFrom limit (offset + c.utf8Size) text
    else
      match operatorKind? c with
      | some kind => do
        return ⟨kind, [c], offset⟩ :: (← scanFrom limit (offset + c.utf8Size) text)
      | none => do
        let (literal, rest) ← splitLiteral none (c :: text)
        let kind := if c = '%' then TokenKind.reference else TokenKind.pattern
        return ⟨kind, literal, offset⟩ :: (← scanFrom limit (offset + utf8Size literal) rest)

/-- The tokens of a text, or the text from the first character of a group that
stays open. -/
def scan (text : List Char) : Except (List Char) (List Token) :=
  scanFrom text.length 0 text

end Token

end PathSets
