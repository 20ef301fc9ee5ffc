import PathSets.Expression.Basic
import PathSets.Pattern.Text

/-!
# The text of an expression

Leaves bind tightest, then complement, intersection, difference, juxtaposition
and union.  An operand gets parentheses where it binds looser than its operator,
and on the right also where it binds equally tight.  `nothing` has the empty
text.
-/

namespace PathSets

namespace Reference

/-- The written form of a reference. -/
def write (r : Reference) : List Char :=
  if r.isWeaker then ['%', '_'] else '%' :: r.path.write ++ ':' :: r.name.toList

/-- The text of a reference. -/
def text (r : Reference) : String :=
  String.ofList r.write

end Reference

/-- The written form of a leaf. -/
def Leaf.write : Leaf → List Char
  | pattern p => p.write
  | reference r => r.write

namespace Operator

/-- How tightly an operator binds; intersection binds tightest. -/
def level : Operator → Nat
  | union => 0
  | juxtaposition => 1
  | difference => 2
  | intersection => 3

/-- The operator with the blanks around it. -/
def write : Operator → List Char
  | union => " + ".toList
  | juxtaposition => [' ']
  | difference => " - ".toList
  | intersection => " & ".toList

end Operator

namespace Tree

/-- How tightly a tree binds. -/
def level : Tree → Nat
  | leaf _ => 5
  | complement _ => 4
  | binary op _ _ => op.level

/-- The written form of a tree. -/
def write : Tree → List Char
  | leaf l => l.write
  | complement operand => '~' :: enclose (operand.level < 4) operand.write
  | binary op left right =>
    enclose (left.level < op.level) left.write ++ op.write ++
      enclose (right.level ≤ op.level) right.write

end Tree

namespace Expression

/-- The written form of an expression. -/
def write : Expression → List Char
  | nothing => []
  | of tree => tree.write

/-- The text of an expression. -/
def text (e : Expression) : String :=
  String.ofList e.write

end Expression

end PathSets
