import PathSets.Expression.Basic

/-!
# Putting expressions in the places of references

`composeOver` replaces every `%_` by a weaker expression and leaves all other
references alone.  `resolve` replaces every reference by what a callback answers,
then the references in the answers, and so on.

Whether that ever ends depends on the callback, so `resolve` is told how many
times over to do it.  References that remain after the last time stay in place.
A callback that answers from a finite table without cycles needs no more times
than the table has entries, and one more for references that it does not know.
-/

namespace PathSets

namespace Leaf

/-- The leaf, or the weaker expression if the leaf is `%_`. -/
def composeOver (weaker : Expression) : Leaf → Expression
  | reference r => if r.isWeaker then weaker else .of (.leaf (.reference r))
  | pattern p => .of (.leaf (.pattern p))

end Leaf

namespace Expression

/-- The expression with each `%_` replaced.  References in the weaker expression,
`%_` among them, are kept. -/
def composeOver (e weaker : Expression) : Expression :=
  e.mapLeaves (·.composeOver weaker)

/-- The expression with each reference replaced by what `ask` answers for it, and
so on through the answers, `times` times over.  References are asked for from left
to right, and those in an answer directly after the one they answer. -/
def resolve {m : Type → Type} [Monad m] (ask : Reference → m Expression) :
    (times : Nat) → Expression → m Expression
  | 0, e => pure e
  | times + 1, e => e.mapLeavesM fun
    | .pattern p => pure (of (.leaf (.pattern p)))
    | .reference r => do resolve ask times (← ask r)

end Expression

end PathSets
