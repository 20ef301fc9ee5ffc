import PathSets.Proofs.CanonicalForm
import PathSets.Proofs.Interpretation

/-!
# Composition

Putting expressions in the places of leaves is an interpretation like any other: the
values are expressions, and the operations are those of the algebra (`rebuilding`).  On
orderly expressions they have the laws that they themselves use when they simplify
(`lawful_rebuilding`).  So putting expressions in the places of leaves twice is the same
as doing it once (`Expression.mapLeaves_mapLeaves`), and to lay an expression over a
weaker one, and that over a third, can be grouped either way
(`Expression.composeOver_assoc`).
-/

namespace PathSets

/-- Joining three trees can be grouped either way. -/
theorem Tree.join_assoc (op : Operator) (t u v : Tree) :
    join op (join op t u) v = join op t (join op u v) := by
  have hbinary : ∀ u v : Tree, join op t (binary op u v) = binary op (join op t u) v := by
    intro u v
    rw [join, if_pos rfl]
  induction v with
  | leaf l => exact (hbinary u (leaf l)).symm
  | complement operand _ => exact (hbinary u (complement operand)).symm
  | binary o left right ih _ =>
    by_cases heq : o = op
    · subst heq
      rw [join, if_pos rfl, ih, join, if_pos rfl, hbinary]
    · rw [join, if_neg heq, join, if_neg heq, hbinary]

namespace Expression

variable {a b c d e : Expression} {op : Operator} {f g : Leaf → Expression}

/-! ## Laws of the algebra -/

theorem intersect_nothing (e : Expression) : e.intersect nothing = nothing := by
  cases e <;> rfl

theorem nothing_unite (op : Operator) (e : Expression) : unite op nothing e = e := by
  cases e <;> rfl

theorem unite_nothing (op : Operator) (e : Expression) : unite op e nothing = e := by
  cases e <;> rfl

theorem subtract_nothing (e : Expression) : e.subtract nothing = e := by
  cases e <;> rfl

theorem everything_intersect (e : Expression) : everything.intersect e = e := by
  cases e <;> rfl

/-- The only orderly expression that is taken for `everything` is `everything`. -/
theorem Orderly.eq_everything {t : Tree} (ht : (of t).Orderly) (h : t.isEverything = true) :
    of t = everything := by
  obtain ⟨q, rfl, -⟩ := Tree.exists_pattern_of_isEverything h
  rw [(ht.2 _ (by simp [leaves, Tree.leaves])).eq_everything h]
  rfl

theorem Orderly.intersect_everything (he : e.Orderly) : e.intersect everything = e := by
  cases e with
  | nothing => rfl
  | of t =>
    have heverything : (Tree.leaf (.pattern .everything)).isEverything = true := rfl
    rw [everything, intersect, if_pos heverything]
    split
    · next h => exact (he.eq_everything h).symm
    · rfl

theorem subtract_everything (e : Expression) : e.subtract everything = nothing := by
  cases e <;> rfl

theorem Orderly.everything_subtract (he : e.Orderly) :
    everything.subtract e = e.complement := by
  cases e with
  | nothing => rfl
  | of t =>
    have heverything : (Tree.leaf (.pattern .everything)).isEverything = true := rfl
    rw [everything, subtract, if_pos heverything]
    split
    · next h =>
      rw [he.eq_everything h]
      rfl
    · rfl

theorem unite_assoc (op : Operator) (a b c : Expression) :
    unite op (unite op a b) c = unite op a (unite op b c) := by
  cases a with
  | nothing => rfl
  | of t =>
    cases b with
    | nothing => rfl
    | of u =>
      cases c with
      | nothing => rfl
      | of v => exact congrArg of (Tree.join_assoc op t u v)

theorem combine_rebuilding (h : op.isUnion = true) : (rebuilding f).combine op = unite op := by
  obtain rfl | rfl := Operator.isUnion_iff.mp h <;> rfl

/-- The operations obey the laws that they use when they simplify, if the leaves are
orderly and `everything` stays in its place. -/
theorem lawful_rebuilding (heverything : f (.pattern .everything) = everything)
    (hf : ∀ l, l.Orderly → (f l).Orderly) :
    (rebuilding f).Lawful Leaf.Orderly Expression.Orderly where
  everything_mem := Pattern.orderly_everything
  leaf_everything hl h := by rw [hl.eq_everything h]; exact heverything
  good_leaf hl := hf _ hl
  good_nothing := closed_orderly.nothing
  good_complement ha := closed_orderly.complement ha
  good_combine op _ _ ha hb := closed_orderly.combine op ha hb
  complement_nothing := rfl
  complement_everything := rfl
  complement_complement ha := ha.complement_complement
  nothing_intersect _ := rfl
  intersect_nothing _ := intersect_nothing _
  everything_intersect _ := everything_intersect _
  intersect_everything ha := ha.intersect_everything
  nothing_subtract _ := rfl
  subtract_nothing _ := subtract_nothing _
  subtract_everything _ := subtract_everything _
  everything_subtract ha := ha.everything_subtract
  nothing_unite hunion _ := by
    rw [combine_rebuilding hunion]
    exact nothing_unite _ _
  unite_nothing hunion _ := by
    rw [combine_rebuilding hunion]
    exact unite_nothing _ _
  unite_assoc hunion _ _ _ := by
    rw [combine_rebuilding hunion]
    exact unite_assoc _ _ _ _

/-! ## Substitution -/

/-- Expressions put in the places of leaves, and others in the places of theirs. -/
theorem mapLeaves_mapLeaves (heverything : f (.pattern .everything) = everything)
    (hf : ∀ l, l.Orderly → (f l).Orderly)
    (hg : ∀ l ∈ e.leaves, ∀ x ∈ (g l).leaves, x.Orderly) :
    (e.mapLeaves g).mapLeaves f = e.mapLeaves fun l => (g l).mapLeaves f := by
  rw [mapLeaves_eq_value f, (lawful_rebuilding heverything hf).value_mapLeaves hg,
    mapLeaves_eq_value]
  refine Interpretation.value_congr (R := rebuilding f) fun l _ => ?_
  exact (mapLeaves_eq_value f (g l)).symm

/-- A canonical tree is what its leaves give when they are put together again. -/
theorem Canonical.mapLeaves_leaf (he : e.Canonical) : (e.mapLeaves fun l => of (.leaf l)) = e := by
  cases e with
  | nothing => rfl
  | of t =>
    simp only [mapLeaves]
    induction t with
    | leaf l => rfl
    | complement operand ih =>
      rw [Tree.mapLeaves, ih he.1]
      exact Tree.complement_of_canonical he
    | binary op left right ihLeft ihRight =>
      rw [Tree.mapLeaves, ihLeft he.1, ihRight he.2.1]
      exact Tree.combine_of_keeps he.2.2

/-! ## Laying over -/

theorem Orderly.leaf_composeOver {l : Leaf} (hc : c.Orderly) (hl : l.Orderly) :
    (l.composeOver c).Orderly := by
  cases l with
  | pattern p => exact orderly_leaf hl
  | reference r =>
    show (if r.isWeaker then c else of (.leaf (.reference r))).Orderly
    split
    · exact hc
    · exact orderly_leaf trivial

/-- What a leaf becomes over two expressions, one over the other. -/
theorem leaf_composeOver_composeOver (l : Leaf) (b c : Expression) :
    (l.composeOver b).composeOver c = l.composeOver (b.composeOver c) := by
  cases l with
  | pattern p => rfl
  | reference r =>
    by_cases hweaker : r.isWeaker = true
    · simp only [Leaf.composeOver, if_pos hweaker]
    · simp [composeOver, mapLeaves, Tree.mapLeaves, Leaf.composeOver, hweaker]

theorem Orderly.composeOver_composeOver (ha : a.Orderly) (hb : b.Orderly) (hc : c.Orderly) :
    (a.composeOver b).composeOver c = a.composeOver (b.composeOver c) := by
  have hf : ∀ l : Leaf, l.Orderly → (l.composeOver c).Orderly := fun l hl => hc.leaf_composeOver hl
  have hg : ∀ l ∈ a.leaves, ∀ x ∈ (l.composeOver b).leaves, x.Orderly := fun l hl =>
    (hb.leaf_composeOver (ha.2 l hl)).2
  calc (a.composeOver b).composeOver c
      = a.mapLeaves fun l => (l.composeOver b).composeOver c := mapLeaves_mapLeaves rfl hf hg
    _ = a.composeOver (b.composeOver c) :=
        mapLeaves_congr fun l _ => leaf_composeOver_composeOver l b c

/-- An expression without `%_` is not changed by what it is laid over. -/
theorem Canonical.composeOver_eq_self (he : e.Canonical) (h : e.hasWeaker = false)
    (c : Expression) : e.composeOver c = e := by
  have hleaf : ∀ l ∈ e.leaves, l.composeOver c = of (.leaf l) := by
    intro l hl
    cases l with
    | pattern p => rfl
    | reference r =>
      have hr : r ∈ e.references := List.mem_filterMap.mpr ⟨_, hl, rfl⟩
      have hnot : ¬ r.isWeaker = true := List.any_eq_false.mp h r hr
      rw [Leaf.composeOver, if_neg hnot]
  exact (mapLeaves_congr hleaf).trans he.mapLeaves_leaf

/-- Laying expressions over each other can be grouped either way, to the same tree,
whatever they refer to.  One without `%_` stays the very tree that it was. -/
theorem Reachable.composeOver_assoc (ha : a.Reachable) (hb : b.Reachable) (hc : c.Reachable) :
    (a.composeOver b).composeOver c = a.composeOver (b.composeOver c) ∧
      (a.hasWeaker = false → a.composeOver b = a) :=
  ⟨ha.orderly.composeOver_composeOver hb.orderly hc.orderly,
    fun h => ha.orderly.1.composeOver_eq_self h b⟩

/-- `~%_ & %:x` over `~%_` over `//`: on the left the complements cancel and `//` folds
away, on the right there is `nothing` to lay it over, and `//` folds away as well. -/
theorem composeOver_assoc_of_folding :
    let x := ofReference (.named "x")
    let a := combine .intersection (ofReference .weaker).complement x
    let b := (ofReference .weaker).complement
    a.Reachable ∧ b.Reachable ∧ everything.Reachable ∧
      a.composeOver b = combine .intersection (ofReference .weaker) x ∧
      b.composeOver everything = nothing ∧
      (a.composeOver b).composeOver everything = a.composeOver (b.composeOver everything) ∧
      (a.composeOver b).composeOver everything = x ∧
      x.hasWeaker = false ∧ x.composeOver b = x := by
  intro x a b
  have hb : b.Reachable := .complement (.reference _)
  have ha : a.Reachable := .combine _ hb (.reference _)
  have hassoc := (Reachable.composeOver_assoc ha hb .everything).1
  have hself := (Reachable.composeOver_assoc (.reference (.named "x")) hb .everything).2 rfl
  exact ⟨ha, hb, .everything, by decide, by decide, hassoc, by decide, rfl, hself⟩

end Expression

end PathSets
