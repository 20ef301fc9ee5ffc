import PathSets.Proofs.CanonicalTree
import PathSets.Proofs.PatternBuilding

/-!
# Orderly expressions

`Expression.Orderly`: a canonical tree whose patterns are orderly.  The operations keep
that (`Expression.closed_orderly`).  The only orderly pattern that stands for everything is
`//` (`Leaf.Orderly.eq_everything`), and so two complements cancel
(`Expression.Orderly.complement_complement`).
-/

namespace PathSets

/-- A reference, or an orderly pattern. -/
def Leaf.Orderly : Leaf → Prop
  | pattern p => p.Orderly
  | reference _ => True

/-- A canonical tree whose patterns are orderly, or `nothing`. -/
def Expression.Orderly (e : Expression) : Prop :=
  e.Canonical ∧ ∀ l ∈ e.leaves, l.Orderly

/-- The only orderly pattern that is everything is `//`. -/
theorem Leaf.Orderly.eq_everything {l : Leaf} (hl : l.Orderly)
    (h : (Tree.leaf l).isEverything = true) : l = .pattern .everything := by
  obtain ⟨q, heq, hroot, hcomponents⟩ := Tree.exists_pattern_of_isEverything h
  obtain rfl := Tree.leaf.inj heq
  have hq : q = .everything :=
    Pattern.Orderly.eq_everything hl hroot (by simp [hcomponents])
      (by simp [hcomponents, Component.isStretch])
  exact congrArg pattern hq

namespace Expression

variable {e : Expression}

theorem orderly_leaf {l : Leaf} (hl : l.Orderly) : Orderly (of (.leaf l)) := by
  refine ⟨trivial, fun x hx => ?_⟩
  obtain rfl := List.mem_singleton.mp hx
  exact hl

theorem closed_orderly : Closed Orderly :=
  closed_canonical.and (closed_leaves Pattern.orderly_everything)

theorem orderly_ofPattern {p : Pattern} (hp : p.Orderly) : (ofPattern p).Orderly := by
  unfold ofPattern
  split
  · exact closed_orderly.nothing
  · exact orderly_leaf hp

/-- A complement undoes a complement. -/
theorem Orderly.complement_complement (he : e.Orderly) : e.complement.complement = e := by
  cases e with
  | nothing => rfl
  | of t =>
    obtain ⟨operand, rfl, heq⟩ | ⟨heverything, heq⟩ | ⟨-, -, heq⟩ := complement_cases t
    · rw [heq]
      exact Tree.complement_of_canonical he.1
    · obtain ⟨q, rfl, -⟩ := Tree.exists_pattern_of_isEverything heverything
      have hl := (he.2 _ (by simp [leaves, Tree.leaves])).eq_everything heverything
      rw [heq, hl]
      rfl
    · rw [heq]
      rfl

/-- Of many complements only matters whether their number is odd. -/
theorem Orderly.repeat_complement (he : e.Orderly) (times : Nat) :
    (Nat.repeat complement times e).Orderly ∧
      Nat.repeat complement times e = if times % 2 = 1 then e.complement else e := by
  induction times with
  | zero => exact ⟨he, rfl⟩
  | succ times ih =>
    obtain ⟨horderly, heq⟩ := ih
    refine ⟨closed_orderly.complement horderly, ?_⟩
    rw [Nat.repeat, heq]
    by_cases hodd : times % 2 = 1
    · rw [if_pos hodd, if_neg (by omega), he.complement_complement]
    · rw [if_neg hodd, if_pos (by omega)]

end Expression

end PathSets
