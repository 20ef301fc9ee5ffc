/-!
# Verdicts

A verdict tells whether a path matches, and whether the answer is constant: the
same for everything below the path, so that a search need not go there.

Verdicts combine like truth values, with one more rule: an operand that decides
the result for good, a constant true in a union or a constant false in an
intersection, makes it constant whatever the other operand is.
-/

namespace PathSets

/-- Whether a path matches, and whether everything below it does likewise. -/
structure Verdict where
  matched : Bool
  constant : Bool
  deriving DecidableEq, Repr, Inhabited

namespace Verdict

/-- The same answer for the path and everything below it. -/
def always (matched : Bool) : Verdict := ⟨matched, true⟩

/-- An answer for the path alone. -/
def varying (matched : Bool) : Verdict := ⟨matched, false⟩

def complement (v : Verdict) : Verdict :=
  ⟨!v.matched, v.constant⟩

/-- The verdict on an intersection. -/
def and (v w : Verdict) : Verdict :=
  if v.constant && !v.matched then v
  else if w.constant && !w.matched then w
  else ⟨v.matched && w.matched, v.constant && w.constant⟩

/-- The verdict on a union. -/
def or (v w : Verdict) : Verdict :=
  if v.constant && v.matched then v
  else if w.constant && w.matched then w
  else ⟨v.matched || w.matched, v.constant && w.constant⟩

/-- The verdict on a difference. -/
def subtract (v w : Verdict) : Verdict :=
  v.and w.complement

end Verdict

end PathSets
