import PathSets.Proofs.ExpressionForm
import PathSets.Proofs.OrderlyForm

/-!
# The canonical form

`Expression.Reachable` are the expressions that come of parsing, the constructors, the
algebra, substitution and relocation, in any order.  All of them are orderly
(`Reachable.orderly`).

What the form says of each node is `Reachable.canonicalForm`.  A union of many operands
stands in the tree as a row of unions of its kind, one on the left of the other, so its
operands are those of the whole row (`Tree.operands`).
-/

namespace PathSets

variable {op : Operator} {t left right : Tree}

/-! ## Nodes -/

namespace Tree

/-- The tree and all trees in it. -/
def subtrees : Tree → List Tree
  | leaf l => [leaf l]
  | complement operand => complement operand :: operand.subtrees
  | binary op left right => binary op left right :: (left.subtrees ++ right.subtrees)

/-- The operands of a row of unions of one kind, from left to right. -/
def operands (op : Operator) : Tree → List Tree
  | binary o left right =>
    if o = op then left.operands op ++ [right] else [binary o left right]
  | t => [t]

theorem operands_of_not_isJoinedBy (h : t.isJoinedBy op = false) : t.operands op = [t] := by
  cases t with
  | leaf l => rfl
  | complement operand => rfl
  | binary o l r =>
    have hne : o ≠ op := by simpa [isJoinedBy] using h
    rw [operands, if_neg hne]

theorem operands_binary (op : Operator) (left right : Tree) :
    (binary op left right).operands op = left.operands op ++ [right] := by
  rw [operands, if_pos rfl]

theorem operands_ne_nil (op : Operator) (t : Tree) : t.operands op ≠ [] := by
  cases t with
  | leaf l => simp [operands]
  | complement operand => simp [operands]
  | binary o l r =>
    rw [operands]
    split <;> simp

theorem Canonical.subtree (h : t.Canonical) : ∀ s ∈ t.subtrees, s.Canonical := by
  induction t with
  | leaf l =>
    intro s hs
    obtain rfl := List.mem_singleton.mp hs
    exact h
  | complement operand ih =>
    intro s hs
    rcases List.mem_cons.mp hs with rfl | hs
    · exact h
    · exact ih h.1 s hs
  | binary op left right ihLeft ihRight =>
    intro s hs
    rcases List.mem_cons.mp hs with rfl | hs
    · exact h
    rcases List.mem_append.mp hs with hs | hs
    · exact ihLeft h.1 s hs
    · exact ihRight h.2.1 s hs

/-- No operand of a union is a union of its kind. -/
theorem Canonical.not_isJoinedBy_of_mem (hunion : op.isUnion = true) (h : t.Canonical) :
    ∀ x ∈ t.operands op, x.isJoinedBy op = false := by
  -- The row of unions goes on at the left; at the right it ends, by `Operator.Keeps`.
  induction t with
  | leaf l =>
    intro x hx
    obtain rfl := List.mem_singleton.mp hx
    rfl
  | complement operand _ =>
    intro x hx
    obtain rfl := List.mem_singleton.mp hx
    rfl
  | binary o left right ih _ =>
    by_cases hjoined : (binary o left right).isJoinedBy op = false
    · intro x hx
      rw [operands_of_not_isJoinedBy hjoined] at hx
      obtain rfl := List.mem_singleton.mp hx
      exact hjoined
    · obtain rfl : o = op := by simpa [isJoinedBy] using hjoined
      have hkeeps := h.2.2
      rw [Operator.Keeps, if_pos hunion] at hkeeps
      intro x hx
      rw [operands_binary] at hx
      rcases List.mem_append.mp hx with hx | hx
      · exact ih h.1 x hx
      · obtain rfl := List.mem_singleton.mp hx
        exact hkeeps

theorem mem_leaves_of_mem_subtrees {l : Leaf} (h : leaf l ∈ t.subtrees) : l ∈ t.leaves := by
  induction t with
  | leaf l' =>
    obtain heq := List.mem_singleton.mp h
    obtain rfl := Tree.leaf.inj heq
    simp [leaves]
  | complement operand ih =>
    rcases List.mem_cons.mp h with heq | h
    · exact absurd heq (by simp)
    · exact ih h
  | binary op left right ihLeft ihRight =>
    rcases List.mem_cons.mp h with heq | h
    · exact absurd heq (by simp)
    rcases List.mem_append.mp h with h | h
    · exact List.mem_append_left _ (ihLeft h)
    · exact List.mem_append_right _ (ihRight h)

end Tree

namespace Expression

variable {e : Expression}

theorem WellFormed.orderly (he : e.WellFormed) : e.Orderly := by
  obtain ⟨hcanonical, hleaves⟩ := wellFormed_iff.mp he
  refine ⟨hcanonical, fun l hl => ?_⟩
  have hwell := hleaves l hl
  cases l with
  | pattern p => exact Pattern.WellFormed.orderly hwell
  | reference r => trivial

/-! ## What can be reached -/

/-- The expressions that can be reached.  What stands in the place of a reference can be
reached too, and the callback that answers it may keep a state. -/
inductive Reachable : Expression → Prop
  | parse {text : String} {e : Expression} (h : parse text = .ok e) : Reachable e
  | nothing : Reachable nothing
  | everything : Reachable everything
  | reference (r : Reference) : Reachable (ofReference r)
  | pattern {p : Pattern} (hp : p.Reachable) : Reachable (ofPattern p)
  | complement {e : Expression} (he : Reachable e) : Reachable e.complement
  | combine {left right : Expression} (op : Operator) (hleft : Reachable left)
      (hright : Reachable right) : Reachable (combine op left right)
  | composeOver {e weaker : Expression} (he : Reachable e) (hweaker : Reachable weaker) :
      Reachable (e.composeOver weaker)
  | resolve {σ : Type} {ask : Reference → StateM σ Expression} {e : Expression}
      (hask : ∀ r s, Reachable (ask r s).1) (he : Reachable e) (times : Nat) (s : σ) :
      Reachable (e.resolve ask times s).1
  | anchorAt {anchor : Path} {e moved : Expression} (he : Reachable e)
      (h : e.anchorAt anchor = .ok moved) : Reachable moved
  | rebase {e : Expression} (he : Reachable e) (old new : Path) : Reachable (e.rebase old new)

theorem Reachable.orderly (h : e.Reachable) : e.Orderly := by
  induction h with
  | parse h => exact (wellFormed_of_parse h).1.orderly
  | nothing => exact closed_orderly.nothing
  | everything => exact orderly_leaf Pattern.orderly_everything
  | reference r => exact orderly_leaf trivial
  | pattern hp => exact orderly_ofPattern hp.orderly
  | complement _ ih => exact closed_orderly.complement ih
  | combine op _ _ ihLeft ihRight => exact closed_orderly.combine op ihLeft ihRight
  | composeOver _ _ ih ihWeaker =>
    exact closed_orderly.composeOver (fun l hl => orderly_leaf (ih.2 l hl)) ihWeaker
  | resolve _ _ times s ihAsk ih =>
    exact closed_orderly.resolve (fun e he l hl => orderly_leaf (he.2 l hl)) ihAsk ih times s
  | anchorAt _ h ih =>
    refine closed_orderly.anchorAt (fun l hl moved hmoved => orderly_leaf ?_) h
    have horderly := ih.2 l hl
    cases l with
    | pattern p =>
      obtain ⟨q, hq, hmoved⟩ := bind_eq_ok.mp hmoved
      obtain rfl := Except.ok.inj hmoved
      exact Pattern.Orderly.anchorAt horderly hq
    | reference r =>
      obtain ⟨path, -, hmoved⟩ := bind_eq_ok.mp hmoved
      obtain rfl := Except.ok.inj hmoved
      trivial
  | rebase _ old new ih =>
    refine closed_orderly.rebase fun l hl => orderly_leaf ?_
    have horderly := ih.2 l hl
    cases l with
    | pattern p => exact Pattern.Orderly.rebase horderly old new
    | reference r => trivial

/-- The trees in an expression. -/
def subtrees : Expression → List Tree
  | nothing => []
  | of t => t.subtrees

/-- The form of every expression that can be reached.  No complement is taken of a
complement or of `everything`.  A union has two operands or more, and none of them is a
union of its kind.  No other operation has `everything` as an operand.  The only pattern
from the root that consists of stretches is `//`, and the only one that is taken for
`everything`.  Therefore two complements cancel. -/
theorem Reachable.canonicalForm (h : e.Reachable) :
    (∀ operand, .complement operand ∈ e.subtrees →
        operand.isComplement = false ∧ operand.isEverything = false) ∧
      (∀ op left right, op.isUnion = true → .binary op left right ∈ e.subtrees →
        let operands := (Tree.binary op left right).operands op
        2 ≤ operands.length ∧ ∀ x ∈ operands, x.isJoinedBy op = false) ∧
      (∀ op left right, op.isUnion = false → .binary op left right ∈ e.subtrees →
        left.isEverything = false ∧ right.isEverything = false) ∧
      (∀ p, .leaf (.pattern p) ∈ e.subtrees →
        (p.base.isRoot = true ∧ p.components ≠ [] ∧
            (∀ c ∈ p.components, c.isStretch = true) → p = .everything) ∧
          ((Tree.leaf (.pattern p)).isEverything = true ↔ p = .everything)) ∧
      e.complement.complement = e := by
  have horderly := h.orderly
  have hcanonical : ∀ t ∈ e.subtrees, t.Canonical := by
    cases e with
    | nothing => exact fun t ht => absurd ht (by simp [subtrees])
    | of t => exact Tree.Canonical.subtree horderly.1
  have hleaf : ∀ p, Tree.leaf (.pattern p) ∈ e.subtrees → p.Orderly := by
    intro p hp
    cases e with
    | nothing => exact absurd hp (by simp [subtrees])
    | of t => exact horderly.2 _ (Tree.mem_leaves_of_mem_subtrees hp)
  refine ⟨fun operand hoperand => ?_, fun op left right hunion hbinary => ?_,
    fun op left right hunion hbinary => ?_, fun p hp => ⟨?_, ?_, ?_⟩,
    horderly.complement_complement⟩
  · exact (hcanonical _ hoperand).2
  · refine ⟨?_, Tree.Canonical.not_isJoinedBy_of_mem hunion (hcanonical _ hbinary)⟩
    have hleft := List.length_pos_iff.mpr (Tree.operands_ne_nil op left)
    rw [Tree.operands_binary, List.length_append, List.length_singleton]
    omega
  · have hkeeps := (hcanonical _ hbinary).2.2
    rwa [Operator.Keeps, if_neg (by simp [hunion])] at hkeeps
  · rintro ⟨hroot, hne, hall⟩
    exact (hleaf p hp).eq_everything hroot hne hall
  · intro heverything
    exact Leaf.pattern.inj (Leaf.Orderly.eq_everything (hleaf p hp) heverything)
  · rintro rfl
    rfl

/-- Moved from below `/a` to below the root, the pattern `/a//` becomes `//` and folds
away, and a `%_` next to it becomes a complement on the right of the difference. -/
theorem canonicalForm_of_rebase :
    let base : Path := ⟨.absolute, ["a"], none⟩
    let e := combine .difference (ofReference (.named "x"))
      (combine .intersection (ofPattern (Pattern.ofPath base).appendStretch) (ofReference .weaker))
    let moved := (e.rebase base .root).composeOver (ofReference (.named "y")).complement
    moved.Reachable ∧
      moved = of (.binary .difference (.leaf (.reference (.named "x")))
        (.complement (.leaf (.reference (.named "y"))))) ∧
      (∀ operand, .complement operand ∈ moved.subtrees →
        operand.isComplement = false ∧ operand.isEverything = false) ∧
      moved.complement.complement = moved := by
  intro base e moved
  have he : e.Reachable :=
    .combine _ (.reference _) (.combine _ (.pattern (.appendStretch (.ofPath base))) (.reference _))
  have hmoved : moved.Reachable :=
    .composeOver (.rebase he base .root) (.complement (.reference _))
  obtain ⟨hcomplement, -, -, -, hcancel⟩ := Reachable.canonicalForm hmoved
  exact ⟨hmoved, by decide, hcomplement, hcancel⟩

end Expression

end PathSets
