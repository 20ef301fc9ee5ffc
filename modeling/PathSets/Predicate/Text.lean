import PathSets.Name
import PathSets.Predicate.Basic

/-!
# The text of a predicate

Calls bind tightest, then `not`, juxtaposition, `and` and `or`.  An operand gets
parentheses where it binds looser than its operator, and on the right of a
connective also where it binds equally tight, so that each connective groups to
the left without them.

A text argument is written bare if it is an identifier and no reserved word, and
quoted otherwise; in quotes, `"` and `\` follow a `\`.
-/

namespace PathSets

/-- The words that no function may be called by. -/
def reservedWords : List String :=
  ["and", "or", "not", "true", "false"]

def isReservedWord (word : List Char) : Bool :=
  reservedWords.any fun reserved => reserved.toList == word

/-- The text between quotes that stands for `text`. -/
def escape : List Char → List Char
  | [] => []
  | c :: text => if c = '"' ∨ c = '\\' then '\\' :: c :: escape text else c :: escape text

/-- The decimal digits of a number. -/
def writeNat (n : Nat) : List Char :=
  Nat.toDigits 10 n

/-- The decimal form of an integer. -/
def writeInt (n : Int) : List Char :=
  if n < 0 then '-' :: writeNat n.natAbs else writeNat n.natAbs

/-- Puts parentheses around a text where they are needed. -/
def enclose (needed : Bool) (text : List Char) : List Char :=
  if needed then '(' :: text ++ [')'] else text

namespace Value

def write : Value → List Char
  | truth b => (if b then "true" else "false").toList
  | number n => writeInt n.toInt
  | word s =>
    if isIdentifier s.toList && !isReservedWord s.toList then s.toList
    else '"' :: escape s.toList ++ ['"']

end Value

namespace Argument

def write (a : Argument) : List Char :=
  match a.keyword with
  | none => a.value.write
  | some keyword => keyword.toList ++ '=' :: a.value.write

/-- The arguments with `separator` between them. -/
def writeAll (separator : List Char) (args : List Argument) : List Char :=
  separator.intercalate (args.map write)

end Argument

namespace Call

def write (c : Call) : List Char :=
  match c.style with
  | .bare => c.name.toList
  | .colon =>
    if c.args.isEmpty then c.name.toList
    else c.name.toList ++ ':' :: Argument.writeAll [','] c.args
  | .paren => c.name.toList ++ '(' :: Argument.writeAll [',', ' '] c.args ++ [')']

end Call

namespace Connective

/-- How tightly a connective binds; juxtaposition binds tightest. -/
def level : Connective → Nat
  | or => 0
  | and => 1
  | juxtaposition => 2

/-- The connective with the blanks around it. -/
def write : Connective → List Char
  | juxtaposition => [' ']
  | and => " and ".toList
  | or => " or ".toList

end Connective

namespace Predicate

/-- How tightly a predicate binds. -/
def level : Predicate → Nat
  | call _ => 4
  | not _ => 3
  | binary op _ _ => op.level

/-- The written form of a predicate. -/
def write : Predicate → List Char
  | call c => c.write
  | not operand => "not ".toList ++ enclose (operand.level < 3) operand.write
  | binary op left right =>
    enclose (left.level < op.level) left.write ++ op.write ++
      enclose (right.level ≤ op.level) right.write

/-- The text of a predicate. -/
def text (p : Predicate) : String :=
  String.ofList p.write

end Predicate

end PathSets
