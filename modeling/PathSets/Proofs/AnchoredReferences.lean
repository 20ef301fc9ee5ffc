import PathSets.Proofs.Anchoring

/-!
# References in anchored expressions

Anchoring turns references into references and patterns into patterns, but a pattern may
become everything, and then the operations fold it away and operands with it.  Only two do:
an intersection loses both operands if one of them has become nothing, and a difference loses
both if the left one has become nothing or the right one everything (`Operator.foldsAway`).

`Expression.survivors` are the references that are in no such operand, and exactly those are
left when an expression is put together again (`Expression.references_mapLeaves`).  Where no
leaf becomes everything nothing is folded away, and the tree keeps its shape
(`Tree.Canonical.mapLeaves_relabel`).

So anchoring keeps a complete expression complete, and an incomplete one incomplete unless all
its references are folded away (`Expression.isComplete_of_anchorAt`).
-/

namespace PathSets

/-! ## What is folded away -/

/-- Whether the expression is everything. -/
def Expression.isEverything : Expression → Bool
  | nothing => false
  | of t => t.isEverything

/-- Whether nothing of the two operands is left when they are combined. -/
def Operator.foldsAway : Operator → Expression → Expression → Bool
  | intersection, left, right => left.isNothing || right.isNothing
  | difference, left, right => left.isNothing || right.isEverything
  | _, _, _ => false

/-- The references that are left when expressions are put in the places of the leaves. -/
def Tree.survivors (f : Leaf → Expression) : Tree → List Reference
  | leaf l => (f l).references
  | complement operand => operand.survivors f
  | binary op left right =>
    if op.foldsAway (left.mapLeaves f) (right.mapLeaves f) then []
    else left.survivors f ++ right.survivors f

namespace Expression

variable {e left right : Expression} {f : Leaf → Expression}

/-- The references that are left when expressions are put in the places of the leaves. -/
def survivors (f : Leaf → Expression) : Expression → List Reference
  | nothing => []
  | of t => t.survivors f

theorem references_of_isEverything {t : Tree} (h : t.isEverything = true) :
    (of t).references = [] := by
  obtain ⟨q, rfl, -⟩ := Tree.exists_pattern_of_isEverything h
  rfl

theorem references_complement (e : Expression) : e.complement.references = e.references := by
  cases e with
  | nothing => rfl
  | of t =>
    obtain ⟨operand, rfl, heq⟩ | ⟨heverything, heq⟩ | ⟨-, -, heq⟩ := complement_cases t <;> rw [heq]
    · rfl
    · exact (references_of_isEverything heverything).symm
    · rfl

theorem references_append {l r : Tree} (h : e.leaves = l.leaves ++ r.leaves) :
    e.references = (of l).references ++ (of r).references := by
  rw [references, h, List.filterMap_append]
  rfl

/-- An operation keeps the references of both operands, unless it folds them away. -/
theorem references_combine (op : Operator) (left right : Expression) :
    (combine op left right).references =
      if op.foldsAway left right then [] else left.references ++ right.references := by
  have hunite : ∀ op, (unite op left right).references = left.references ++ right.references := by
    intro op
    cases left with
    | nothing => cases right <;> rfl
    | of l =>
      cases right with
      | nothing => exact (List.append_nil _).symm
      | of r => exact references_append (Tree.leaves_join op l r)
  cases op with
  | juxtaposition => exact hunite .juxtaposition
  | union => exact hunite .union
  | intersection =>
    cases left with
    | nothing => rfl
    | of l =>
      cases right with
      | nothing => rfl
      | of r =>
        rw [combine, if_neg (by simp [Operator.foldsAway, isNothing])]
        obtain ⟨hl, heq⟩ | ⟨hr, heq⟩ | ⟨-, -, heq⟩ := intersect_cases l r <;> rw [heq]
        · rw [references_of_isEverything hl, List.nil_append]
        · rw [references_of_isEverything hr, List.append_nil]
        · exact references_append rfl
  | difference =>
    cases left with
    | nothing => rfl
    | of l =>
      cases right with
      | nothing => exact (List.append_nil _).symm
      | of r =>
        rw [combine]
        obtain ⟨hr, heq⟩ | ⟨hl, heq⟩ | ⟨-, hr, heq⟩ := subtract_cases l r <;> rw [heq]
        · rw [if_pos (by simp [Operator.foldsAway, isEverything, hr])]
          rfl
        · rw [references_complement, references_of_isEverything hl, List.nil_append]
          split
          · next hfolds =>
            have hr : r.isEverything = true := by
              simpa [Operator.foldsAway, isNothing, isEverything] using hfolds
            exact references_of_isEverything hr
          · rfl
        · rw [if_neg (by simp [Operator.foldsAway, isNothing, isEverything, hr])]
          exact references_append rfl

theorem references_mapLeaves (f : Leaf → Expression) (e : Expression) :
    (e.mapLeaves f).references = e.survivors f := by
  cases e with
  | nothing => rfl
  | of t =>
    rw [mapLeaves, survivors]
    induction t with
    | leaf l => rfl
    | complement operand ih => rw [Tree.mapLeaves, references_complement, ih, Tree.survivors]
    | binary op left right ihLeft ihRight =>
      rw [Tree.mapLeaves, references_combine, ihLeft, ihRight, Tree.survivors]

end Expression

/-! ## Where nothing is folded away -/

namespace Tree

variable {g : Leaf → Leaf} {t : Tree} {op : Operator}

/-- The tree with other leaves. -/
def relabel (g : Leaf → Leaf) : Tree → Tree
  | leaf l => leaf (g l)
  | complement operand => complement (operand.relabel g)
  | binary op left right => binary op (left.relabel g) (right.relabel g)

theorem leaves_relabel (g : Leaf → Leaf) (t : Tree) : (t.relabel g).leaves = t.leaves.map g := by
  induction t with
  | leaf l => rfl
  | complement operand ih => exact ih
  | binary op left right ihLeft ihRight =>
    rw [relabel, leaves, ihLeft, ihRight, leaves, List.map_append]

theorem isComplement_relabel (g : Leaf → Leaf) (t : Tree) :
    (t.relabel g).isComplement = t.isComplement := by
  cases t <;> rfl

theorem isJoinedBy_relabel (g : Leaf → Leaf) (t : Tree) :
    (t.relabel g).isJoinedBy op = t.isJoinedBy op := by
  cases t <;> rfl

theorem isEverything_relabel
    (hg : ∀ l ∈ t.leaves, (leaf (g l)).isEverything = (leaf l).isEverything) :
    (t.relabel g).isEverything = t.isEverything := by
  cases t with
  | leaf l => exact hg l (by simp [leaves])
  | complement operand => rfl
  | binary op left right => rfl

/-- A canonical tree stays canonical with other leaves, if none of them becomes everything or
ceases to be it, and is the tree that is put together from them. -/
theorem Canonical.mapLeaves_relabel (ht : t.Canonical)
    (hg : ∀ l ∈ t.leaves, (leaf (g l)).isEverything = (leaf l).isEverything) :
    (t.relabel g).Canonical ∧ t.mapLeaves (fun l => .of (leaf (g l))) = .of (t.relabel g) := by
  induction t with
  | leaf l => exact ⟨trivial, rfl⟩
  | complement operand ih =>
    rw [leaves] at hg
    obtain ⟨hoperand, hcomplement, heverything⟩ := ht
    obtain ⟨hcanonical, hmap⟩ := ih hoperand hg
    have hresult : (complement (operand.relabel g)).Canonical := by
      refine ⟨hcanonical, ?_, ?_⟩
      · rwa [isComplement_relabel]
      · rwa [isEverything_relabel hg]
    exact ⟨hresult, by rw [mapLeaves, hmap]; exact complement_of_canonical hresult⟩
  | binary op left right ihLeft ihRight =>
    obtain ⟨hleft, hright, hkeeps⟩ := ht
    rw [leaves, List.forall_mem_append] at hg
    obtain ⟨hleftCanonical, hleftMap⟩ := ihLeft hleft hg.1
    obtain ⟨hrightCanonical, hrightMap⟩ := ihRight hright hg.2
    have hkeeps' : op.Keeps (left.relabel g) (right.relabel g) := by
      rwa [Operator.Keeps, isJoinedBy_relabel, isEverything_relabel hg.1,
        isEverything_relabel hg.2, ← Operator.Keeps]
    refine ⟨⟨hleftCanonical, hrightCanonical, hkeeps'⟩, ?_⟩
    rw [mapLeaves, hleftMap, hrightMap]
    exact combine_of_keeps hkeeps'

end Tree

/-! ## Anchoring -/

/-- The reference with its path as seen from an absolute one. -/
def Reference.seenFrom (r : Reference) (anchor : Path) : Reference :=
  { r with path := r.path.seenFrom anchor }

namespace Expression

variable {e moved : Expression} {anchor : Path}

/-- The references that are left when the expression is anchored. -/
def survivorsFrom (e : Expression) (anchor : Path) : List Reference :=
  e.survivors fun l => of (.leaf (l.seenFrom anchor))

theorem references_relabel (anchor : Path) (t : Tree) :
    (of (t.relabel (Leaf.seenFrom anchor))).references =
      (of t).references.map (Reference.seenFrom · anchor) := by
  simp only [references, leaves, Tree.leaves_relabel, List.filterMap_map, List.map_filterMap]
  congr 1
  funext l
  cases l <;> rfl

/-- A pattern becomes everything only if it is relative and looks like that from the anchor. -/
theorem isEverything_seenFrom {l : Leaf} (hl : l.WellFormed)
    (h : ∀ p, l = .pattern p → p.isAbsolute = false → p.seenFrom anchor ≠ .everything) :
    (Tree.leaf (l.seenFrom anchor)).isEverything = (Tree.leaf l).isEverything := by
  cases l with
  | reference r => rfl
  | pattern p =>
    have hp : p.WellFormed := hl
    by_cases habsolute : p.isAbsolute = true
    · have hrelative : p.base.anchor ≠ .relative := by
        intro heq
        simp [Pattern.isAbsolute, Path.isAbsolute, heq] at habsolute
      rw [Leaf.seenFrom, Pattern.seenFrom, Path.seenFrom, if_neg hrelative, hp.setBase_base]
    have hno : p.isAbsolute = false := by simpa using habsolute
    have hbefore : (Tree.leaf (.pattern p)).isEverything = false := by
      rw [Bool.eq_false_iff]
      intro heverything
      obtain ⟨q, heq, hroot, -⟩ := Tree.exists_pattern_of_isEverything heverything
      obtain rfl := Leaf.pattern.inj (Tree.leaf.inj heq)
      rw [Path.isRoot, Bool.and_eq_true, Bool.and_eq_true] at hroot
      exact habsolute hroot.1.1
    rw [hbefore, Bool.eq_false_iff]
    intro heverything
    have horderly : (Leaf.pattern (p.seenFrom anchor)).Orderly := hp.orderly.setBase _
    exact h p rfl hno (Leaf.pattern.inj (horderly.eq_everything heverything))

/-- Where no pattern becomes everything, anchoring keeps all references. -/
theorem WellFormed.references_seenFrom (he : e.WellFormed)
    (h : ∀ p, .pattern p ∈ e.leaves → p.isAbsolute = false → p.seenFrom anchor ≠ .everything) :
    (e.seenFrom anchor).references = e.references.map (Reference.seenFrom · anchor) := by
  cases e with
  | nothing => rfl
  | of t =>
    have hcanonical : t.Canonical := (wellFormed_iff.mp he).1
    have hsame := (hcanonical.mapLeaves_relabel fun l hl =>
      isEverything_seenFrom (he.leaf hl) fun p heq => h p (heq ▸ hl)).2
    rw [seenFrom, mapLeaves, hsame, references_relabel]

/-- An expression is complete if all its leaves are patterns. -/
theorem isComplete_iff : e.isComplete = true ↔ ∀ l ∈ e.leaves, ∀ r, l ≠ .reference r := by
  rw [isComplete, hasReferences, Bool.not_not, List.isEmpty_iff, references,
    List.filterMap_eq_nil_iff]
  refine forall₂_congr fun l _ => ?_
  cases l <;> simp

/-- Anchoring adds no references. -/
theorem isComplete_seenFrom (h : e.isComplete = true) (anchor : Path) :
    (e.seenFrom anchor).isComplete = true := by
  have hclosed : Closed fun e => ∀ l ∈ e.leaves, ∀ r, l ≠ .reference r := closed_leaves nofun
  refine isComplete_iff.mpr (hclosed.mapLeaves fun l hl x hx => ?_)
  obtain rfl := List.mem_singleton.mp hx
  cases l with
  | pattern p => exact nofun
  | reference r => exact absurd rfl (isComplete_iff.mp h _ hl r)

/-- The references of an anchored expression are those that are not folded away, so it is
complete if and only if there are none.  It is complete if the expression is; and the other
way round as well, if no relative pattern becomes everything. -/
theorem isComplete_of_anchorAt {text : String} (h : Expression.parse text = .ok e)
    (hmoved : e.anchorAt anchor = .ok moved) :
    moved.references = e.survivorsFrom anchor ∧
      (moved.isComplete = true ↔ e.survivorsFrom anchor = []) ∧
      (e.isComplete = true → moved.isComplete = true) ∧
      ((∀ p, .pattern p ∈ e.leaves → p.isAbsolute = false → p.seenFrom anchor ≠ .everything) →
        (moved.isComplete = true ↔ e.isComplete = true)) := by
  have hcomplete : ∀ {e : Expression}, e.isComplete = true ↔ e.references = [] := by
    simp [isComplete, hasReferences]
  have he : e.WellFormed := (wellFormed_of_parse h).1
  obtain ⟨-, -, rfl⟩ := he.anchorAt_eq_ok_iff.mp hmoved
  have hreferences : (e.seenFrom anchor).references = e.survivorsFrom anchor :=
    references_mapLeaves _ e
  refine ⟨hreferences, hcomplete.trans (by rw [hreferences]),
    fun h => isComplete_seenFrom h anchor, fun hpatterns => ?_⟩
  rw [hcomplete, hcomplete, he.references_seenFrom hpatterns, List.map_eq_nil_iff]

/-- From `/w/v` no pattern is everything, and the reference is kept. -/
theorem isComplete_of_anchorAt_kept :
    let e := of (.binary .difference (.leaf (.reference .weaker))
      (.leaf (.pattern ⟨⟨.relative, [".."], none⟩, [.stretch], false⟩)))
    let anchor : Path := ⟨.absolute, ["w", "v"], none⟩
    Expression.parse "%_ - ..//" = .ok e ∧ e.isComplete = false ∧
      ∃ moved, e.anchorAt anchor = .ok moved ∧ moved.references = [.weaker] ∧
        moved.isComplete = false := by
  intro e anchor
  have hparse : Expression.parse "%_ - ..//" = .ok e := by decide +kernel
  have hmoved : e.anchorAt anchor = .ok (e.seenFrom anchor) := by decide
  have hincomplete : e.isComplete = false := by decide
  obtain ⟨hreferences, -, -, hboth⟩ := isComplete_of_anchorAt hparse hmoved
  refine ⟨hparse, hincomplete, _, hmoved, hreferences.trans (by decide), ?_⟩
  have hpatterns : ∀ p, .pattern p ∈ e.leaves → p.isAbsolute = false →
      p.seenFrom anchor ≠ .everything := by
    intro p hp _
    obtain rfl : p = ⟨⟨.relative, [".."], none⟩, [.stretch], false⟩ := by
      simpa [e, leaves, Tree.leaves] using hp
    decide
  rw [Bool.eq_false_iff, ne_eq, hboth hpatterns, hincomplete]
  simp

/-- From the root the subtracted pattern is everything, and the reference is folded away. -/
theorem isComplete_fails_of_anchorAt :
    ∃ e moved, Expression.parse "%_ - .//" = .ok e ∧ e.anchorAt .root = .ok moved ∧
      e.isComplete = false ∧ moved.isComplete = true := by
  refine ⟨of (.binary .difference (.leaf (.reference .weaker))
    (.leaf (.pattern .everyDescendant))), nothing, ?_⟩
  decide +kernel

end Expression

end PathSets
