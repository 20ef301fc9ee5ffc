import PathSets.Proofs.CanonicalForm

/-!
# The depth of trees

The nodes of an expression are leaves and operators, and the children of a union are the
operands of its whole row (`Tree.children`).  `Tree.depth` counts operators on the way down to
the deepest leaf.  In a canonical tree that is the height (`Tree.Canonical.depth_eq`), which is no
greater than the depth that the reader measures on the text.  So what is read is no deeper
than `maxDepth` (`Expression.depth_le_of_parse`), and neither are the predicates in it
(`Pattern.WellFormed.depth_le`).
-/

namespace PathSets

variable {op : Operator} {t left right child : Tree}

namespace Tree

/-! ## Children -/

/-- The nodes right below the top.  Those of a union are the operands of its row. -/
def children : Tree → List Tree
  | leaf _ => []
  | complement operand => [operand]
  | binary op left right =>
    if op.isUnion then (binary op left right).operands op else [left, right]

theorem children_union (h : op.isUnion = true) :
    (binary op left right).children = left.operands op ++ [right] := by
  rw [children, if_pos h, operands_binary]

theorem children_binary (h : op.isUnion = false) :
    (binary op left right).children = [left, right] := by
  simp [children, h]

theorem sizeOf_le_of_mem_operands (h : child ∈ t.operands op) : sizeOf child ≤ sizeOf t := by
  induction t with
  | leaf l =>
    obtain rfl := List.mem_singleton.mp h
    exact Nat.le_refl _
  | complement operand =>
    obtain rfl := List.mem_singleton.mp h
    exact Nat.le_refl _
  | binary o left right ih =>
    rw [operands] at h
    split at h
    · have hsize : sizeOf (binary o left right) = 1 + sizeOf o + sizeOf left + sizeOf right := rfl
      rcases List.mem_append.mp h with h | h
      · have hleft := ih h
        omega
      · obtain rfl := List.mem_singleton.mp h
        omega
    · obtain rfl := List.mem_singleton.mp h
      exact Nat.le_refl _

/-- A child is a smaller tree. -/
theorem sizeOf_lt_of_mem_children (h : child ∈ t.children) : sizeOf child < sizeOf t := by
  cases t with
  | leaf l => exact absurd h (by simp [children])
  | complement operand =>
    obtain rfl := List.mem_singleton.mp h
    exact Nat.lt_add_of_pos_left Nat.one_pos
  | binary op left right =>
    have hsize : sizeOf (binary op left right) = 1 + sizeOf op + sizeOf left + sizeOf right := rfl
    have hmem : child ∈ left.operands op ∨ child = left ∨ child = right := by
      cases hunion : op.isUnion with
      | true =>
        rw [children_union hunion] at h
        exact (List.mem_append.mp h).imp_right fun h => Or.inr (List.mem_singleton.mp h)
      | false =>
        rw [children_binary hunion] at h
        exact Or.inr (by simpa using h)
    rcases hmem with hmem | rfl | rfl
    · have hle := sizeOf_le_of_mem_operands hmem
      omega
    · omega
    · omega

/-! ## Depth -/

/-- The depth of a tree: 0 for a leaf, and for an operator one more than the depth of its
deepest child. -/
def depth (t : Tree) : Nat :=
  (t.children.attach.map fun child => child.val.depth + 1).foldr max 0
termination_by sizeOf t
decreasing_by exact sizeOf_lt_of_mem_children child.property

/-- The depth of a node with these children. -/
def depthOver (children : List Tree) : Nat :=
  (children.map fun child => child.depth + 1).foldr max 0

theorem depth_eq_depthOver (t : Tree) : t.depth = depthOver t.children := by
  rw [depth]
  simp only [depthOver, List.map_attach_eq_pmap, List.pmap_eq_map]

theorem depthOver_singleton (t : Tree) : depthOver [t] = t.depth + 1 :=
  Nat.max_zero _

theorem depthOver_append (front back : List Tree) :
    depthOver (front ++ back) = max (depthOver front) (depthOver back) := by
  have hback := @List.foldr_assoc Nat max _ (front.map fun child => child.depth + 1) 0
    (depthOver back)
  rw [Nat.zero_max] at hback
  rw [depthOver, List.map_append, List.foldr_append]
  exact hback

/-- A union that shares its level with one above it has a level to share. -/
theorem shared_le_height (op : Operator) (t : Tree) : t.shared op ≤ t.height := by
  cases t with
  | leaf l => simp [shared, isJoinedBy]
  | complement operand => simp [shared, isJoinedBy]
  | binary o left right =>
    rw [height]
    exact Nat.le_trans (shared_le op _) (Nat.le_add_left 1 _)

/-- In a canonical tree the depth is the height.  Above a row of unions it counts the level of
the row once. -/
theorem Canonical.depth_eq (h : t.Canonical) :
    t.depth = t.height ∧ ∀ op : Operator, op.isUnion = true →
      depthOver (t.operands op) = t.height + 1 - t.shared op := by
  -- What is no union of this kind is the only operand of its row.
  have hsingle : ∀ {s : Tree} {op : Operator}, s.isJoinedBy op = false → s.depth = s.height →
      depthOver (s.operands op) = s.height + 1 - s.shared op := by
    intro s op hjoined hdepth
    have hshared : s.shared op = 0 := by simp [shared, hjoined]
    rw [operands_of_not_isJoinedBy hjoined, depthOver_singleton, hshared, hdepth]
    rfl
  induction t with
  | leaf l =>
    have hdepth : (leaf l).depth = (leaf l).height := depth_eq_depthOver _
    exact ⟨hdepth, fun op _ => hsingle rfl hdepth⟩
  | complement operand ih =>
    have hdepth : (complement operand).depth = (complement operand).height := by
      rw [depth_eq_depthOver, children, depthOver_singleton, (ih h.1).1, height]
    exact ⟨hdepth, fun op _ => hsingle rfl hdepth⟩
  | binary o left right ihLeft ihRight =>
    obtain ⟨hleft, hright, hkeeps⟩ := h
    obtain ⟨hldepth, hlrow⟩ := ihLeft hleft
    obtain ⟨hrdepth, -⟩ := ihRight hright
    have hdepth : (binary o left right).depth = (binary o left right).height := by
      rw [depth_eq_depthOver, height_binary hkeeps]
      cases hunion : o.isUnion with
      | true =>
        have hshared := shared_le_height o left
        rw [children_union hunion, depthOver_append, depthOver_singleton, hlrow o hunion, hrdepth]
        omega
      | false =>
        have hshared : left.shared o = 0 := by simp [shared, hunion]
        rw [children_binary hunion, ← List.singleton_append, depthOver_append,
          depthOver_singleton, depthOver_singleton, hldepth, hrdepth, hshared]
        omega
    refine ⟨hdepth, fun op hunion => ?_⟩
    by_cases hjoined : (binary o left right).isJoinedBy op = false
    · exact hsingle hjoined hdepth
    · obtain rfl : o = op := by simpa [isJoinedBy] using hjoined
      rw [operands_binary, ← children_union hunion, ← depth_eq_depthOver, hdepth, shared_binary,
        if_pos hunion, Nat.add_sub_cancel]

end Tree

/-- The depth of an expression: that of its tree. -/
def Expression.depth : Expression → Nat
  | nothing => 0
  | of t => t.depth

/-! ## What is read -/

theorem Pattern.Continues.depth_le {isProperty : Bool} {p : Pattern}
    {components : List Component} (h : Continues isProperty p components) :
    ∀ c ∈ components, ∀ condition ∈ c.condition?, condition.depth ≤ maxDepth := by
  induction h with
  | done => exact nofun
  | stretch _ _ ih => exact List.forall_mem_cons.mpr ⟨nofun, ih⟩
  | element hc _ _ _ ih =>
    exact List.forall_mem_cons.mpr ⟨fun condition h => (hc.condition condition h).2, ih⟩
  | property _ hc _ _ =>
    exact List.forall_mem_cons.mpr ⟨fun condition h => (hc.condition condition h).2, nofun⟩

/-- The predicates of a well-formed pattern are no deeper than `maxDepth`. -/
theorem Pattern.WellFormed.depth_le {p : Pattern} (hp : p.WellFormed) :
    ∀ condition ∈ p.conditions, condition.depth ≤ maxDepth := by
  intro condition hcondition
  obtain ⟨c, hc, hsome⟩ := List.mem_filterMap.mp hcondition
  cases hbase : p.base.isProperty with
  | true => exact absurd hc (by simp [(hp.property hbase).1])
  | false => exact (hp.components hbase).depth_le c hc condition hsome

/-- An expression that is read is no deeper than `maxDepth`, and neither are the predicates in
it. -/
theorem Expression.depth_le_of_parse {text : String} {e : Expression} (h : parse text = .ok e) :
    e.depth ≤ maxDepth ∧
      ∀ p, .pattern p ∈ e.leaves → ∀ condition ∈ p.conditions, condition.depth ≤ maxDepth := by
  obtain ⟨he, hheight⟩ := wellFormed_of_parse h
  obtain ⟨hcanonical, hleaves⟩ := wellFormed_iff.mp he
  refine ⟨?_, fun p hp => Pattern.WellFormed.depth_le (hleaves _ hp)⟩
  cases e with
  | nothing => exact Nat.zero_le _
  | of t =>
    show t.depth ≤ maxDepth
    rw [hcanonical.depth_eq.1]
    exact hheight

end PathSets
