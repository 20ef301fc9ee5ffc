/-!
# Predicates

A predicate is a condition on paths: calls of named functions, combined with
`not`, `and`, `or` and juxtaposition.  It says nothing about what the functions
do; a library does that.

`Predicate.names` lists the functions that are called, and `Predicate.depth` is
the height of the tree, calls counting nothing.
-/

namespace PathSets

/-- A literal argument. -/
inductive Value where
  | truth (value : Bool)
  | number (value : Int64)
  | word (value : String)
  deriving DecidableEq, Repr

/-- An argument of a call, passed by keyword or by position. -/
structure Argument where
  keyword : Option String := none
  value : Value
  deriving DecidableEq, Repr

/-- The three ways to write a call: `f`, `f:a,b` and `f(a, k=b)`. -/
inductive CallStyle where
  | bare
  | colon
  | paren
  deriving DecidableEq, Repr

/-- A call of a named function. -/
structure Call where
  style : CallStyle := .bare
  name : String
  args : List Argument := []
  deriving DecidableEq, Repr

/-- What joins two predicates: nothing, `and` or `or`.  The first two mean the
same. -/
inductive Connective where
  | juxtaposition
  | and
  | or
  deriving DecidableEq, Repr

/-- A condition on paths. -/
inductive Predicate where
  | call (call : Call)
  | not (operand : Predicate)
  | binary (op : Connective) (left right : Predicate)
  deriving DecidableEq, Repr

namespace Predicate

/-- The names of the functions that are called, from left to right. -/
def names : Predicate → List String
  | call c => [c.name]
  | not operand => operand.names
  | binary _ left right => left.names ++ right.names

/-- The greatest number of operators above a call. -/
def depth : Predicate → Nat
  | call _ => 0
  | not operand => operand.depth + 1
  | binary _ left right => max left.depth right.depth + 1

end Predicate

end PathSets
