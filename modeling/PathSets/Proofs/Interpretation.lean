import PathSets.Proofs.CanonicalTree

/-!
# Values of expressions

An `Interpretation` gives a value to each leaf, and to each operation on values.  What an
expression matches, what verdict it has at a path, and what a substitution makes of it are
the values of the expression under three interpretations.

The operations on expressions simplify, so an expression and the operands that it was
made of have different trees.  Under an interpretation with the right laws
(`Interpretation.Lawful`) that makes no difference: the value of the result is the
operation on the values of the operands (`Lawful.value_complement`,
`Lawful.value_combine`).  Putting expressions in the places of leaves is then the same as
giving their values to these leaves (`Lawful.value_mapLeaves`).
-/

namespace PathSets

/-- Values for the leaves and for the operations. -/
structure Interpretation (α : Type) where
  leaf : Leaf → α
  nothing : α
  everything : α
  complement : α → α
  combine : Operator → α → α → α

variable {α : Type} {R : Interpretation α} {A : Leaf → Prop} {good : α → Prop}

/-- The value of a tree. -/
def Tree.value (R : Interpretation α) : Tree → α
  | leaf l => R.leaf l
  | complement operand => R.complement (operand.value R)
  | binary op left right => R.combine op (left.value R) (right.value R)

/-- The value of an expression. -/
def Expression.value (R : Interpretation α) : Expression → α
  | nothing => R.nothing
  | of t => t.value R

namespace Interpretation

/-- The laws that the operations on expressions use when they simplify.  They need to hold
for leaves in `A` and for `good` values only. -/
structure Lawful (R : Interpretation α) (A : Leaf → Prop) (good : α → Prop) : Prop where
  everything_mem : A (.pattern .everything)
  leaf_everything : ∀ {l}, A l → (Tree.leaf l).isEverything = true → R.leaf l = R.everything
  good_leaf : ∀ {l}, A l → good (R.leaf l)
  good_nothing : good R.nothing
  good_complement : ∀ {a}, good a → good (R.complement a)
  good_combine : ∀ (op : Operator) {a b}, good a → good b → good (R.combine op a b)
  complement_nothing : R.complement R.nothing = R.everything
  complement_everything : R.complement R.everything = R.nothing
  complement_complement : ∀ {a}, good a → R.complement (R.complement a) = a
  nothing_intersect : ∀ {a}, good a → R.combine .intersection R.nothing a = R.nothing
  intersect_nothing : ∀ {a}, good a → R.combine .intersection a R.nothing = R.nothing
  everything_intersect : ∀ {a}, good a → R.combine .intersection R.everything a = a
  intersect_everything : ∀ {a}, good a → R.combine .intersection a R.everything = a
  nothing_subtract : ∀ {a}, good a → R.combine .difference R.nothing a = R.nothing
  subtract_nothing : ∀ {a}, good a → R.combine .difference a R.nothing = a
  subtract_everything : ∀ {a}, good a → R.combine .difference a R.everything = R.nothing
  everything_subtract : ∀ {a}, good a →
    R.combine .difference R.everything a = R.complement a
  nothing_unite : ∀ {op a}, op.isUnion = true → good a → R.combine op R.nothing a = a
  unite_nothing : ∀ {op a}, op.isUnion = true → good a → R.combine op a R.nothing = a
  unite_assoc : ∀ {op a b c}, op.isUnion = true → good a → good b → good c →
    R.combine op (R.combine op a b) c = R.combine op a (R.combine op b c)

namespace Lawful

variable {e left right : Expression} {t : Tree}

/-! ## The value of an operation is the operation on the values -/

theorem good_tree (hR : R.Lawful A good) (ht : ∀ l ∈ t.leaves, A l) : good (t.value R) := by
  induction t with
  | leaf l => exact hR.good_leaf (ht l (by simp [Tree.leaves]))
  | complement operand ih => exact hR.good_complement (ih ht)
  | binary op left right ihLeft ihRight =>
    exact hR.good_combine op (ihLeft fun l hl => ht l (List.mem_append_left _ hl))
      (ihRight fun l hl => ht l (List.mem_append_right _ hl))

theorem good_value (hR : R.Lawful A good) (he : ∀ l ∈ e.leaves, A l) : good (e.value R) := by
  cases e with
  | nothing => exact hR.good_nothing
  | of t => exact hR.good_tree he

theorem value_of_isEverything (hR : R.Lawful A good) (ht : ∀ l ∈ t.leaves, A l)
    (h : t.isEverything = true) : t.value R = R.everything := by
  obtain ⟨q, rfl, -⟩ := Tree.exists_pattern_of_isEverything h
  exact hR.leaf_everything (ht _ (by simp [Tree.leaves])) h

theorem value_everything (hR : R.Lawful A good) :
    Expression.everything.value R = R.everything :=
  hR.leaf_everything hR.everything_mem rfl

theorem value_complement (hR : R.Lawful A good) (he : ∀ l ∈ e.leaves, A l) :
    e.complement.value R = R.complement (e.value R) := by
  cases e with
  | nothing => exact hR.value_everything.trans hR.complement_nothing.symm
  | of t =>
    obtain ⟨operand, rfl, heq⟩ | ⟨heverything, heq⟩ | ⟨-, -, heq⟩ :=
      Expression.complement_cases t <;> rw [heq]
    · have hoperand : good (operand.value R) := hR.good_tree he
      exact (hR.complement_complement hoperand).symm
    · have hvalue : (Expression.of t).value R = R.everything :=
        hR.value_of_isEverything he heverything
      rw [hvalue, hR.complement_everything]
      rfl
    · rfl

theorem value_intersect (hR : R.Lawful A good) (hleft : ∀ l ∈ left.leaves, A l)
    (hright : ∀ l ∈ right.leaves, A l) :
    (left.intersect right).value R = R.combine .intersection (left.value R) (right.value R) := by
  have hl := hR.good_value hleft
  have hr := hR.good_value hright
  cases left with
  | nothing => exact (hR.nothing_intersect hr).symm
  | of l =>
    cases right with
    | nothing => exact (hR.intersect_nothing hl).symm
    | of r =>
      obtain ⟨heverything, heq⟩ | ⟨heverything, heq⟩ | ⟨-, -, heq⟩ :=
        Expression.intersect_cases l r <;> rw [heq]
      · have hvalue : (Expression.of l).value R = R.everything :=
          hR.value_of_isEverything hleft heverything
        rw [hvalue, hR.everything_intersect hr]
      · have hvalue : (Expression.of r).value R = R.everything :=
          hR.value_of_isEverything hright heverything
        rw [hvalue, hR.intersect_everything hl]
      · rfl

theorem value_subtract (hR : R.Lawful A good) (hleft : ∀ l ∈ left.leaves, A l)
    (hright : ∀ l ∈ right.leaves, A l) :
    (left.subtract right).value R = R.combine .difference (left.value R) (right.value R) := by
  have hl := hR.good_value hleft
  have hr := hR.good_value hright
  cases left with
  | nothing => exact (hR.nothing_subtract hr).symm
  | of l =>
    cases right with
    | nothing => exact (hR.subtract_nothing hl).symm
    | of r =>
      obtain ⟨heverything, heq⟩ | ⟨heverything, heq⟩ | ⟨-, -, heq⟩ :=
        Expression.subtract_cases l r <;> rw [heq]
      · have hvalue : (Expression.of r).value R = R.everything :=
          hR.value_of_isEverything hright heverything
        rw [hvalue, hR.subtract_everything hl]
        rfl
      · have hvalue : (Expression.of l).value R = R.everything :=
          hR.value_of_isEverything hleft heverything
        rw [hvalue, hR.everything_subtract hr]
        exact hR.value_complement hright
      · rfl

theorem value_join (hR : R.Lawful A good) {op : Operator} (hunion : op.isUnion = true)
    {left right : Tree} (hleft : ∀ l ∈ left.leaves, A l) (hright : ∀ l ∈ right.leaves, A l) :
    (Tree.join op left right).value R = R.combine op (left.value R) (right.value R) := by
  -- Each step down the row of unions on the right regroups once.
  induction right with
  | leaf l => rfl
  | complement operand _ => rfl
  | binary o l r ih _ =>
    rw [Tree.join]
    split
    · next heq =>
      subst heq
      have hl : ∀ x ∈ l.leaves, A x := fun x hx => hright x (List.mem_append_left _ hx)
      have hr : ∀ x ∈ r.leaves, A x := fun x hx => hright x (List.mem_append_right _ hx)
      rw [Tree.value, ih hl, Tree.value]
      exact hR.unite_assoc hunion (hR.good_tree hleft) (hR.good_tree hl) (hR.good_tree hr)
    · rfl

theorem value_unite (hR : R.Lawful A good) {op : Operator} (hunion : op.isUnion = true)
    (hleft : ∀ l ∈ left.leaves, A l) (hright : ∀ l ∈ right.leaves, A l) :
    (Expression.unite op left right).value R = R.combine op (left.value R) (right.value R) := by
  have hl := hR.good_value hleft
  have hr := hR.good_value hright
  cases left with
  | nothing => cases right <;> exact (hR.nothing_unite hunion hr).symm
  | of l =>
    cases right with
    | nothing => exact (hR.unite_nothing hunion hl).symm
    | of r => exact hR.value_join hunion hleft hright

theorem value_combine (hR : R.Lawful A good) (op : Operator) (hleft : ∀ l ∈ left.leaves, A l)
    (hright : ∀ l ∈ right.leaves, A l) :
    (Expression.combine op left right).value R =
      R.combine op (left.value R) (right.value R) := by
  cases op with
  | intersection => exact hR.value_intersect hleft hright
  | difference => exact hR.value_subtract hleft hright
  | juxtaposition => exact hR.value_unite rfl hleft hright
  | union => exact hR.value_unite rfl hleft hright

/-! ## Substitution -/

theorem value_mapLeaves_tree (hR : R.Lawful A good) {f : Leaf → Expression}
    (hf : ∀ l ∈ t.leaves, ∀ x ∈ (f l).leaves, A x) :
    (t.mapLeaves f).value R = t.value { R with leaf := fun l => (f l).value R } := by
  have hA : Expression.Closed fun e => ∀ l ∈ e.leaves, A l :=
    Expression.closed_leaves hR.everything_mem
  induction t with
  | leaf l => rfl
  | complement operand ih =>
    have hoperand : ∀ x ∈ (operand.mapLeaves f).leaves, A x := hA.mapLeaves_tree hf
    rw [Tree.mapLeaves, hR.value_complement hoperand, ih hf]
    rfl
  | binary op left right ihLeft ihRight =>
    have hleft : ∀ l ∈ left.leaves, ∀ x ∈ (f l).leaves, A x :=
      fun l hl => hf l (List.mem_append_left _ hl)
    have hright : ∀ l ∈ right.leaves, ∀ x ∈ (f l).leaves, A x :=
      fun l hl => hf l (List.mem_append_right _ hl)
    rw [Tree.mapLeaves, hR.value_combine op (hA.mapLeaves_tree hleft)
      (hA.mapLeaves_tree hright), ihLeft hleft, ihRight hright]
    rfl

/-- An expression with others in the places of its leaves has the value that it has if
each leaf has the value of what was put in its place. -/
theorem value_mapLeaves (hR : R.Lawful A good) {f : Leaf → Expression}
    (hf : ∀ l ∈ e.leaves, ∀ x ∈ (f l).leaves, A x) :
    (e.mapLeaves f).value R = e.value { R with leaf := fun l => (f l).value R } := by
  cases e with
  | nothing => rfl
  | of t => exact hR.value_mapLeaves_tree hf

end Lawful

theorem value_tree_congr {f g : Leaf → α} {t : Tree} (h : ∀ l ∈ t.leaves, f l = g l) :
    t.value { R with leaf := f } = t.value { R with leaf := g } := by
  induction t with
  | leaf l => exact h l (by simp [Tree.leaves])
  | complement operand ih => exact congrArg R.complement (ih h)
  | binary op left right ihLeft ihRight =>
    have hleft := ihLeft fun l hl => h l (List.mem_append_left _ hl)
    have hright := ihRight fun l hl => h l (List.mem_append_right _ hl)
    rw [Tree.value, Tree.value, hleft, hright]

/-- Only the values of its own leaves count for the value of an expression. -/
theorem value_congr {f g : Leaf → α} {e : Expression} (h : ∀ l ∈ e.leaves, f l = g l) :
    e.value { R with leaf := f } = e.value { R with leaf := g } := by
  cases e with
  | nothing => rfl
  | of t => exact value_tree_congr h

end Interpretation

/-! ## Rebuilding as an interpretation -/

/-- The expressions with `f l` in the place of each leaf `l`. -/
def rebuilding (f : Leaf → Expression) : Interpretation Expression where
  leaf := f
  nothing := .nothing
  everything := .everything
  complement := Expression.complement
  combine := Expression.combine

namespace Expression

theorem mapLeaves_eq_value (f : Leaf → Expression) (e : Expression) :
    e.mapLeaves f = e.value (rebuilding f) := by
  cases e with
  | nothing => rfl
  | of t =>
    simp only [mapLeaves, value]
    induction t with
    | leaf l => rfl
    | complement operand ih => exact congrArg complement ih
    | binary op left right ihLeft ihRight => rw [Tree.mapLeaves, ihLeft, ihRight]; rfl

/-- Only what stands in the places of its own leaves counts. -/
theorem mapLeaves_congr {e : Expression} {f g : Leaf → Expression}
    (h : ∀ l ∈ e.leaves, f l = g l) : e.mapLeaves f = e.mapLeaves g := by
  rw [mapLeaves_eq_value, mapLeaves_eq_value]
  exact Interpretation.value_congr (R := rebuilding f) h

end Expression

end PathSets
