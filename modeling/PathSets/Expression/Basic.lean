import PathSets.Pattern.Basic

/-!
# Path expressions

An expression is built from patterns and references to other expressions by
complement, intersection, difference and two kinds of union, one written with an
operator and one by juxtaposition.  The expression that matches nothing is
`Expression.nothing`, all others are trees.

The operations keep trees canonical: complements cancel, `nothing` and
`everything` are folded away, and unions of one kind group to the left.  Two
expressions are equal exactly if their canonical trees are.

There are two groups.

* The operations, `Expression.complement` and `Expression.combine`.
* The traversals.  `Tree.leaves` lists the leaves from left to right, and
  `Tree.mapLeaves` and `Tree.mapLeavesM` put expressions in their places and
  rebuild the tree with the operations above.
-/

namespace PathSets

/-- The name of the reference `%_`. -/
def weakerName : String := "_"

/-- A reference to another expression: `%_`, `%:name` or `%path:name`. -/
structure Reference where
  path : Path := .empty
  name : String
  deriving DecidableEq, Repr

namespace Reference

/-- The reference `%_`, which stands for a weaker expression. -/
def weaker : Reference := { name := weakerName }

/-- The reference `%:name`. -/
def named (name : String) : Reference := { name }

def isWeaker (r : Reference) : Bool :=
  r.path.isEmpty && r.name == weakerName

end Reference

/-- A leaf of an expression. -/
inductive Leaf where
  | pattern (pattern : Pattern)
  | reference (reference : Reference)
  deriving DecidableEq, Repr

/-- What joins two expressions. -/
inductive Operator where
  | intersection
  | difference
  /-- The union of expressions that stand side by side. -/
  | juxtaposition
  | union
  deriving DecidableEq, Repr

/-- Whether the operator is one of the two unions. -/
def Operator.isUnion : Operator → Bool
  | juxtaposition => true
  | union => true
  | _ => false

/-- An expression that is not `nothing`. -/
inductive Tree where
  | leaf (leaf : Leaf)
  | complement (operand : Tree)
  | binary (op : Operator) (left right : Tree)
  deriving DecidableEq, Repr

namespace Tree

/-- Whether the tree is the pattern `//`. -/
def isEverything : Tree → Bool
  | leaf (.pattern p) => p.hasLeadingStretch && p.components.length == 1
  | _ => false

/-- The union of two trees.  The operands of a union of the same kind on the right
are joined one by one, so that no such union stands on the right of another. -/
def join (op : Operator) (left : Tree) : Tree → Tree
  | binary o l r => if o = op then binary op (join op left l) r else binary op left (binary o l r)
  | right => binary op left right

/-- The leaves from left to right. -/
def leaves : Tree → List Leaf
  | leaf l => [l]
  | complement operand => operand.leaves
  | binary _ left right => left.leaves ++ right.leaves

end Tree

/-- A set of paths, written with patterns and references. -/
inductive Expression where
  | nothing
  | of (tree : Tree)
  deriving DecidableEq, Repr, Inhabited

namespace Expression

/-! ## Operations -/

/-- The expression of all absolute paths. -/
def everything : Expression := of (.leaf (.pattern .everything))

/-- The expression that matches what a pattern matches.  The empty pattern matches
nothing. -/
def ofPattern (p : Pattern) : Expression :=
  if p.isEmpty then nothing else of (.leaf (.pattern p))

def ofReference (r : Reference) : Expression :=
  of (.leaf (.reference r))

/-- Everything that the expression does not match. -/
def complement : Expression → Expression
  | nothing => everything
  | of (.complement operand) => of operand
  | of tree => if tree.isEverything then nothing else of (.complement tree)

/-- What both expressions match. -/
def intersect : Expression → Expression → Expression
  | of left, of right =>
    if left.isEverything then of right
    else if right.isEverything then of left
    else of (.binary .intersection left right)
  | _, _ => nothing

/-- What the first expression matches and the second does not. -/
def subtract : Expression → Expression → Expression
  | nothing, _ => nothing
  | of left, nothing => of left
  | of left, of right =>
    if right.isEverything then nothing
    else if left.isEverything then complement (of right)
    else of (.binary .difference left right)

/-- What either expression matches, as a union of the given kind. -/
def unite (op : Operator) : Expression → Expression → Expression
  | nothing, right => right
  | left, nothing => left
  | of left, of right => of (.join op left right)

/-- The combination of two expressions by an operator. -/
def combine : Operator → Expression → Expression → Expression
  | .intersection => intersect
  | .difference => subtract
  | .juxtaposition => unite .juxtaposition
  | .union => unite .union

/-! ## Traversals -/

/-- The leaves from left to right. -/
def leaves : Expression → List Leaf
  | nothing => []
  | of tree => tree.leaves

end Expression

namespace Tree

/-- The tree with an expression in the place of each leaf. -/
def mapLeaves (f : Leaf → Expression) : Tree → Expression
  | leaf l => f l
  | complement operand => (operand.mapLeaves f).complement
  | binary op left right => .combine op (left.mapLeaves f) (right.mapLeaves f)

/-- The tree with an expression in the place of each leaf, where the expressions
are found from left to right with effects. -/
def mapLeavesM {m : Type → Type} [Monad m] (f : Leaf → m Expression) : Tree → m Expression
  | leaf l => f l
  | complement operand => do
    return (← operand.mapLeavesM f).complement
  | binary op left right => do
    let left ← left.mapLeavesM f
    return .combine op left (← right.mapLeavesM f)

end Tree

namespace Expression

/-- The expression with another one in the place of each leaf. -/
def mapLeaves (f : Leaf → Expression) : Expression → Expression
  | nothing => nothing
  | of tree => tree.mapLeaves f

/-- The expression with another one in the place of each leaf, found from left to
right with effects. -/
def mapLeavesM {m : Type → Type} [Monad m] (f : Leaf → m Expression) : Expression → m Expression
  | nothing => pure nothing
  | of tree => tree.mapLeavesM f

/-! ## What an expression contains -/

def isNothing : Expression → Bool
  | nothing => true
  | of _ => false

/-- The references from left to right. -/
def references (e : Expression) : List Reference :=
  e.leaves.filterMap fun
    | .pattern _ => none
    | .reference r => some r

/-- Whether there is any reference. -/
def hasReferences (e : Expression) : Bool :=
  !e.references.isEmpty

/-- Whether there is a reference `%_`. -/
def hasWeaker (e : Expression) : Bool :=
  e.references.any (·.isWeaker)

/-- Whether the expression has no reference and so a meaning of its own. -/
def isComplete (e : Expression) : Bool :=
  !e.hasReferences

end Expression

/-- Whether a leaf says the same from every place: an absolute pattern, or a
reference with an absolute path or none. -/
def Leaf.isAbsolute : Leaf → Bool
  | pattern p => p.isAbsolute
  | reference r => r.path.isEmpty || r.path.isAbsolute

/-- Whether all leaves are absolute. -/
def Expression.isAbsolute (e : Expression) : Bool :=
  e.leaves.all (·.isAbsolute)

end PathSets
