import PathSets.Expression.Relocation
import PathSets.Expression.Substitution
import PathSets.Proofs.Outcome

/-!
# Canonical trees

A tree is `Tree.Canonical` if no operation in it has anything left to simplify.  On
canonical operands an operation only puts its operator on top (`Tree.combine_of_keeps`,
`Tree.complement_of_canonical`).

`Expression.Closed` are the properties that the operations keep.  To be canonical is one
of them (`Expression.closed_canonical`), and to have leaves of some kind is another, if
`everything` is of that kind (`Expression.closed_leaves`).  What the operations keep also
holds of an expression that is rebuilt from its leaves, and so of what substitution
(`Closed.composeOver`, `Closed.resolve`) and relocation (`Closed.anchorAt`,
`Closed.rebase`) give.
-/

namespace PathSets

/-! ## Canonical form -/

namespace Tree

/-- Whether the tree is joined by this operator. -/
def isJoinedBy (op : Operator) : Tree → Bool
  | binary o _ _ => o == op
  | _ => false

def isComplement : Tree → Bool
  | complement _ => true
  | _ => false

end Tree

theorem Operator.isUnion_iff {op : Operator} :
    op.isUnion = true ↔ op = .juxtaposition ∨ op = .union := by
  cases op <;> simp [isUnion]

/-- Whether an operator leaves its operands as they are: a union has no union of its kind
on the right, and nothing is intersected with or subtracted from `everything`. -/
def Operator.Keeps (op : Operator) (left right : Tree) : Prop :=
  if op.isUnion then right.isJoinedBy op = false
  else left.isEverything = false ∧ right.isEverything = false

/-- A tree in which no operation has anything left to simplify. -/
def Tree.Canonical : Tree → Prop
  | leaf _ => True
  | complement operand =>
    operand.Canonical ∧ operand.isComplement = false ∧ operand.isEverything = false
  | binary op left right => left.Canonical ∧ right.Canonical ∧ op.Keeps left right

/-- An expression that is `nothing` or has a canonical tree. -/
def Expression.Canonical : Expression → Prop
  | nothing => True
  | of t => t.Canonical

namespace Tree

variable {op : Operator} {t left right : Tree}

/-- Only a pattern from the root is taken for `everything`, one that is a stretch and
nothing else. -/
theorem exists_pattern_of_isEverything (h : t.isEverything = true) :
    ∃ q : Pattern, t = leaf (.pattern q) ∧ q.base.isRoot = true ∧ q.components = [.stretch] := by
  cases t with
  | complement operand => exact absurd h (by simp [isEverything])
  | binary op left right => exact absurd h (by simp [isEverything])
  | leaf l =>
    cases l with
    | reference r => exact absurd h (by simp [isEverything])
    | pattern q =>
      simp only [isEverything, Pattern.hasLeadingStretch, Bool.and_eq_true, beq_iff_eq,
        List.length_eq_one_iff] at h
      obtain ⟨⟨hroot, hhead⟩, c, hc⟩ := h
      have hstretch : c.isStretch = true := by simpa [hc] using hhead
      exact ⟨q, rfl, hroot, by rw [hc, Component.eq_stretch hstretch]⟩

theorem join_of_not_isJoinedBy (h : right.isJoinedBy op = false) :
    join op left right = binary op left right := by
  cases right with
  | leaf l => rfl
  | complement operand => rfl
  | binary o l r =>
    have hne : o ≠ op := by simpa [isJoinedBy] using h
    rw [join, if_neg hne]

/-- On canonical operands an operation puts its operator on top. -/
theorem combine_of_keeps (h : op.Keeps left right) :
    Expression.combine op (.of left) (.of right) = .of (binary op left right) := by
  cases op with
  | intersection =>
    obtain ⟨hleft, hright⟩ : left.isEverything = false ∧ right.isEverything = false := h
    simp [Expression.combine, Expression.intersect, hleft, hright]
  | difference =>
    obtain ⟨hleft, hright⟩ : left.isEverything = false ∧ right.isEverything = false := h
    simp [Expression.combine, Expression.subtract, hleft, hright]
  | juxtaposition => exact congrArg Expression.of (join_of_not_isJoinedBy h)
  | union => exact congrArg Expression.of (join_of_not_isJoinedBy h)

theorem complement_of_canonical (h : (complement t).Canonical) :
    Expression.complement (.of t) = .of (complement t) := by
  obtain ⟨-, hcomplement, heverything⟩ := h
  cases t with
  | complement operand => exact absurd hcomplement (by simp [isComplement])
  | leaf l => simp [Expression.complement, heverything]
  | binary op l r => rfl

theorem Canonical.join (hunion : op.isUnion = true) (hleft : left.Canonical)
    (hright : right.Canonical) : (join op left right).Canonical := by
  have hbinary : ∀ {left right : Tree}, left.Canonical → right.Canonical →
      right.isJoinedBy op = false → (binary op left right).Canonical := by
    intro left right hleft hright hnot
    refine ⟨hleft, hright, ?_⟩
    rwa [Operator.Keeps, if_pos hunion]
  -- Joining goes down the row of unions on the right and puts `left` at its end.
  induction right with
  | leaf l => exact hbinary hleft hright rfl
  | complement operand _ => exact hbinary hleft hright rfl
  | binary o l r ih _ =>
    rw [Tree.join]
    split
    · next heq =>
      subst heq
      have hkeeps := hright.2.2
      rw [Operator.Keeps, if_pos hunion] at hkeeps
      exact hbinary (ih hright.1) hright.2.1 hkeeps
    · next hne => exact hbinary hleft hright (by simpa [isJoinedBy] using hne)

theorem leaves_join (op : Operator) (left right : Tree) :
    (join op left right).leaves = left.leaves ++ right.leaves := by
  induction right with
  | leaf l => rfl
  | complement operand _ => rfl
  | binary o l r ih _ =>
    rw [join]
    split
    · rw [leaves, ih, leaves, List.append_assoc]
    · rfl

end Tree

/-! ## What the operations keep -/

namespace Expression

/-- A property that the operations keep. -/
structure Closed (P : Expression → Prop) : Prop where
  nothing : P .nothing
  complement : ∀ {e : Expression}, P e → P e.complement
  combine : ∀ (op : Operator) {left right : Expression}, P left → P right →
    P (combine op left right)

variable {P Q : Expression → Prop} {e left right : Expression}

theorem Closed.and (hP : Closed P) (hQ : Closed Q) : Closed fun e => P e ∧ Q e where
  nothing := ⟨hP.nothing, hQ.nothing⟩
  complement he := ⟨hP.complement he.1, hQ.complement he.2⟩
  combine op _ _ hleft hright :=
    ⟨hP.combine op hleft.1 hright.1, hQ.combine op hleft.2 hright.2⟩

/-- What the operations do to trees.  A complement is undone, folded away or put on top. -/
theorem complement_cases (t : Tree) :
    (∃ operand, t = .complement operand ∧ complement (of t) = of operand) ∨
      (t.isEverything = true ∧ complement (of t) = nothing) ∨
      (t.isComplement = false ∧ t.isEverything = false ∧
        complement (of t) = of (.complement t)) := by
  cases t with
  | complement operand => exact Or.inl ⟨operand, rfl, rfl⟩
  | binary op left right => exact Or.inr (Or.inr ⟨rfl, rfl, rfl⟩)
  | leaf l =>
    by_cases heverything : (Tree.leaf l).isEverything = true
    · exact Or.inr (Or.inl ⟨heverything, if_pos heverything⟩)
    · have hnot : (Tree.leaf l).isEverything = false := by simpa using heverything
      exact Or.inr (Or.inr ⟨rfl, hnot, if_neg heverything⟩)

/-- An intersection with `everything` is the other operand. -/
theorem intersect_cases (left right : Tree) :
    (left.isEverything = true ∧ intersect (of left) (of right) = of right) ∨
      (right.isEverything = true ∧ intersect (of left) (of right) = of left) ∨
      (left.isEverything = false ∧ right.isEverything = false ∧
        intersect (of left) (of right) = of (.binary .intersection left right)) := by
  rw [intersect]
  split
  · next hleft => exact Or.inl ⟨hleft, rfl⟩
  next hleft =>
  split
  · next hright => exact Or.inr (Or.inl ⟨hright, rfl⟩)
  · next hright => exact Or.inr (Or.inr ⟨by simpa using hleft, by simpa using hright, rfl⟩)

/-- Nothing is left of a difference with `everything`, and a difference from `everything`
is a complement. -/
theorem subtract_cases (left right : Tree) :
    (right.isEverything = true ∧ subtract (of left) (of right) = nothing) ∨
      (left.isEverything = true ∧ subtract (of left) (of right) = complement (of right)) ∨
      (left.isEverything = false ∧ right.isEverything = false ∧
        subtract (of left) (of right) = of (.binary .difference left right)) := by
  rw [subtract]
  split
  · next hright => exact Or.inl ⟨hright, rfl⟩
  next hright =>
  split
  · next hleft => exact Or.inr (Or.inl ⟨hleft, rfl⟩)
  · next hleft => exact Or.inr (Or.inr ⟨by simpa using hleft, by simpa using hright, rfl⟩)

/-- What the operations keep, asked where they work on trees.  An intersection, a
difference or a union with `nothing` needs no further thought. -/
theorem closed_of_trees (hnothing : P nothing) (heverything : P everything)
    (hcomplement : ∀ t, P (of t) → P (of t).complement)
    (hbinary : ∀ op left right, op.isUnion = false → left.isEverything = false →
      right.isEverything = false → P (of left) → P (of right) → P (of (.binary op left right)))
    (hjoin : ∀ op left right, op.isUnion = true → P (of left) → P (of right) →
      P (of (.join op left right))) : Closed P where
  nothing := hnothing
  complement := by
    intro e he
    cases e with
    | nothing => exact heverything
    | of t => exact hcomplement t he
  combine := by
    intro op left right hleft hright
    -- With `nothing` on a side the result is `nothing` or an operand.
    have hunite : op.isUnion = true → P (unite op left right) := by
      intro hunion
      cases left with
      | nothing => cases right <;> exact hright
      | of l =>
        cases right with
        | nothing => exact hleft
        | of r => exact hjoin op l r hunion hleft hright
    cases op with
    | juxtaposition => exact hunite rfl
    | union => exact hunite rfl
    | intersection =>
      cases left with
      | nothing => exact hnothing
      | of l =>
        cases right with
        | nothing => exact hnothing
        | of r =>
          rw [combine]
          obtain ⟨-, heq⟩ | ⟨-, heq⟩ | ⟨hl, hr, heq⟩ := intersect_cases l r <;> rw [heq]
          · exact hright
          · exact hleft
          · exact hbinary _ l r rfl hl hr hleft hright
    | difference =>
      cases left with
      | nothing => exact hnothing
      | of l =>
        cases right with
        | nothing => exact hleft
        | of r =>
          rw [combine]
          obtain ⟨-, heq⟩ | ⟨-, heq⟩ | ⟨hl, hr, heq⟩ := subtract_cases l r <;> rw [heq]
          · exact hnothing
          · exact hcomplement r hright
          · exact hbinary _ l r rfl hl hr hleft hright

theorem closed_canonical : Closed Canonical := by
  refine closed_of_trees trivial trivial ?_ ?_ fun op l r => Tree.Canonical.join
  · intro t ht
    obtain ⟨operand, rfl, heq⟩ | ⟨-, heq⟩ | ⟨hcomplement, heverything, heq⟩ :=
      complement_cases t <;> rw [heq]
    · exact ht.1
    · trivial
    · exact ⟨ht, hcomplement, heverything⟩
  · intro op l r hunion hl hr hleft hright
    refine ⟨hleft, hright, ?_⟩
    rw [Operator.Keeps, if_neg (by simp [hunion])]
    exact ⟨hl, hr⟩

/-- The operations bring no leaves of their own but `everything`. -/
theorem closed_leaves {A : Leaf → Prop} (heverything : A (.pattern .everything)) :
    Closed fun e => ∀ l ∈ e.leaves, A l := by
  have happend : ∀ {left right : List Leaf}, (∀ l ∈ left, A l) → (∀ l ∈ right, A l) →
      ∀ l ∈ left ++ right, A l := by
    intro left right hleft hright l hl
    rcases List.mem_append.mp hl with hl | hl
    · exact hleft l hl
    · exact hright l hl
  have hsingle : ∀ l ∈ everything.leaves, A l := by
    intro l hl
    obtain rfl := List.mem_singleton.mp hl
    exact heverything
  refine closed_of_trees (by simp [leaves]) hsingle ?_ (fun _ _ _ _ _ _ => happend) ?_
  · intro t ht
    obtain ⟨operand, rfl, heq⟩ | ⟨-, heq⟩ | ⟨-, -, heq⟩ := complement_cases t <;> rw [heq]
    · exact ht
    · simp [leaves]
    · exact ht
  · intro op l r _ hleft hright
    rw [leaves, Tree.leaves_join]
    exact happend hleft hright

/-! ## Rebuilding -/

theorem Closed.mapLeaves_tree {f : Leaf → Expression} {t : Tree} (hP : Closed P)
    (hf : ∀ l ∈ t.leaves, P (f l)) : P (t.mapLeaves f) := by
  induction t with
  | leaf l => exact hf l (by simp [Tree.leaves])
  | complement operand ih => exact hP.complement (ih hf)
  | binary op left right ihLeft ihRight =>
    exact hP.combine op (ihLeft fun l hl => hf l (List.mem_append_left _ hl))
      (ihRight fun l hl => hf l (List.mem_append_right _ hl))

theorem Closed.mapLeaves {f : Leaf → Expression} (hP : Closed P)
    (hf : ∀ l ∈ e.leaves, P (f l)) : P (e.mapLeaves f) := by
  cases e with
  | nothing => exact hP.nothing
  | of t => exact hP.mapLeaves_tree hf

/-- The same where the expressions are found with a state. -/
theorem Closed.mapLeavesState {σ : Type} {f : Leaf → StateM σ Expression} (hP : Closed P)
    (hf : ∀ l ∈ e.leaves, ∀ s, P (f l s).1) (s : σ) : P (e.mapLeavesM f s).1 := by
  cases e with
  | nothing => exact hP.nothing
  | of t =>
    simp only [leaves] at hf
    simp only [Expression.mapLeavesM]
    induction t generalizing s with
    | leaf l => exact hf l (by simp [Tree.leaves]) s
    | complement operand ih => exact hP.complement (ih s hf)
    | binary op left right ihLeft ihRight =>
      exact hP.combine op (ihLeft s fun l hl => hf l (List.mem_append_left _ hl))
        (ihRight _ fun l hl => hf l (List.mem_append_right _ hl))

/-- The same where finding an expression may fail. -/
theorem Closed.mapLeavesExcept {ε : Type} {f : Leaf → Except ε Expression} (hP : Closed P)
    (hf : ∀ l ∈ e.leaves, ∀ found, f l = .ok found → P found) {result : Expression}
    (h : e.mapLeavesM f = .ok result) : P result := by
  cases e with
  | nothing =>
    obtain rfl := Except.ok.inj h
    exact hP.nothing
  | of t =>
    simp only [leaves] at hf
    simp only [Expression.mapLeavesM] at h
    induction t generalizing result with
    | leaf l => exact hf l (by simp [Tree.leaves]) result h
    | complement operand ih =>
      obtain ⟨inner, hinner, h⟩ := bind_eq_ok.mp h
      obtain rfl := Except.ok.inj h
      exact hP.complement (ih hf hinner)
    | binary op left right ihLeft ihRight =>
      obtain ⟨l, hl, h⟩ := bind_eq_ok.mp h
      obtain ⟨r, hr, h⟩ := bind_eq_ok.mp h
      obtain rfl := Except.ok.inj h
      exact hP.combine op (ihLeft (fun l hl => hf l (List.mem_append_left _ hl)) hl)
        (ihRight (fun l hl => hf l (List.mem_append_right _ hl)) hr)

theorem Closed.composeOver {weaker : Expression} (hP : Closed P)
    (hleaf : ∀ l ∈ e.leaves, P (of (.leaf l))) (hweaker : P weaker) :
    P (e.composeOver weaker) := by
  apply hP.mapLeaves
  intro l hl
  cases l with
  | pattern p => exact hleaf _ hl
  | reference r =>
    show P (if r.isWeaker then weaker else of (.leaf (.reference r)))
    split
    · exact hweaker
    · exact hleaf _ hl

/-- What stands for a leaf is kept as long as the answers and their own leaves are. -/
theorem Closed.resolve {σ : Type} {ask : Reference → StateM σ Expression} (hP : Closed P)
    (hself : ∀ e, P e → ∀ l ∈ e.leaves, P (of (.leaf l)))
    (hask : ∀ r s, P (ask r s).1) (he : P e) (times : Nat) (s : σ) :
    P (e.resolve ask times s).1 := by
  -- An answer is resolved one time less than what it answers.
  induction times generalizing e s with
  | zero => exact he
  | succ times ih =>
    refine hP.mapLeavesState (fun l hl s => ?_) s
    cases l with
    | pattern p => exact hself e he _ hl
    | reference r => exact ih (hask r s) _

theorem Closed.anchorAt {anchor : Path} {result : Expression} (hP : Closed P)
    (hleaf : ∀ l ∈ e.leaves, ∀ moved, l.anchorAt anchor = .ok moved → P (of (.leaf moved)))
    (h : e.anchorAt anchor = .ok result) : P result := by
  unfold Expression.anchorAt at h
  split at h
  · exact absurd h (by simp)
  · refine hP.mapLeavesExcept (fun l hl found hfound => ?_) h
    obtain ⟨moved, hmoved, hfound⟩ := bind_eq_ok.mp hfound
    obtain rfl := Except.ok.inj hfound
    exact hleaf l hl moved hmoved

theorem Closed.rebase {old new : Path} (hP : Closed P)
    (hleaf : ∀ l ∈ e.leaves, P (of (.leaf (l.rebase old new)))) : P (e.rebase old new) :=
  hP.mapLeaves hleaf

end Expression

end PathSets
