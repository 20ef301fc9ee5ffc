import PathSets.Proofs.ByteOrder
import PathSets.Proofs.Lineage

/-!
# Subtrees in the order of paths

The order of paths is a total one, in which a path comes before everything within it
(`Path.le_of_isWithin`), and what stands between two paths within the same path is within it
too (`Path.isWithin_of_between`).  So an ascending list names every path before those below
it (`Path.Ascending.topsFirst`), and each subtree is one stretch of the list
(`Path.Ascending.isStretchOf`).

Both rest on two facts about words: a word comes before those that it begins, and what stands
between two of them begins with it (`isLE_compare_of_prefix`, `prefix_of_between`).
-/

namespace PathSets

open Std

/-! ## Words -/

section Words

variable {α : Type} [Ord α] {front text middle other : List α}

theorem isLE_compare_of_prefix [ReflOrd α] (h : front <+: text) :
    (compare front text).isLE = true := by
  obtain ⟨rest, rfl⟩ := h
  induction front with
  | nil => cases rest <;> rfl
  | cons x front ih =>
    have hx : compare x x = .eq := ReflCmp.compare_self
    rwa [List.cons_append, List.compare_cons_cons, hx, Ordering.eq_then]

/-- What stands between two words that begin alike begins like them. -/
theorem prefix_of_between [TransOrd α] [LawfulEqOrd α] (htext : front <+: text)
    (hother : front <+: other) (hbefore : (compare text middle).isLE = true)
    (hafter : (compare middle other).isLE = true) : front <+: middle := by
  induction front generalizing text middle other with
  | nil => exact List.nil_prefix
  | cons x front ih =>
    obtain ⟨text, rfl, htext'⟩ := List.cons_prefix_iff.mp htext
    obtain ⟨other, rfl, hother'⟩ := List.cons_prefix_iff.mp hother
    cases middle with
    | nil => exact absurd hbefore (by simp)
    | cons y middle =>
      rw [List.compare_cons_cons, Ordering.isLE_then_iff_and] at hbefore hafter
      have heq : compare x y = .eq := OrientedCmp.isLE_antisymm hbefore.1 hafter.1
      obtain rfl := LawfulEqCmp.eq_of_compare heq
      rw [heq] at hbefore hafter
      rw [List.cons_prefix_cons]
      exact ⟨rfl, ih htext' hother' (by simpa using hbefore) (by simpa using hafter)⟩

end Words

namespace Path

/-! ## The order -/

instance : LE Path := leOfOrd

instance : DecidableLE Path := fun p q =>
  inferInstanceAs (Decidable ((compare p q).isLE = true))

/-- Paths compared by their bytes: where they start, then prim by prim, then by the property,
none before any. -/
def compareBytes (p q : Path) : Ordering :=
  (compare p.anchor.rank q.anchor.rank).then
    ((compare (p.prims.map nameBytes) (q.prims.map nameBytes)).then
      (compare (p.property.map nameBytes) (q.property.map nameBytes)))

section Order

variable {p q r : Path}

theorem le_iff : p ≤ q ↔ (compare p q).isLE = true := Iff.rfl

theorem compare_eq (p q : Path) :
    compare p q = (compare p.anchor.rank q.anchor.rank).then
      ((compare p.prims q.prims).then (compare p.property q.property)) := rfl

/-- Of two paths that start at the same place, the prims decide. -/
theorem compare_of_anchor (h : p.anchor = q.anchor) :
    compare p q = (compare p.prims q.prims).then (compare p.property q.property) := by
  have hrank : compare p.anchor.rank q.anchor.rank = .eq := by
    rw [h]
    exact ReflCmp.compare_self
  rw [compare_eq, hrank, Ordering.eq_then]

theorem compare_map_nameBytes (prims other : List String) :
    compare (prims.map nameBytes) (other.map nameBytes) = compare prims other := by
  induction prims generalizing other with
  | nil => cases other <;> rfl
  | cons name prims ih =>
    cases other with
    | nil => rfl
    | cons name' other =>
      rw [List.map_cons, List.map_cons, List.compare_cons_cons, List.compare_cons_cons,
        compare_nameBytes, ih]

/-- The order is one of bytes. -/
theorem compare_eq_bytes (p q : Path) : compare p q = p.compareBytes q := by
  have hproperty : ∀ x y : Option String,
      compare (x.map nameBytes) (y.map nameBytes) = compare x y := by
    intro x y
    cases x with
    | none => cases y <;> rfl
    | some x =>
      cases y with
      | none => rfl
      | some y => exact compare_nameBytes x y
  rw [compare_eq, compareBytes, compare_map_nameBytes, hproperty]

instance : TransOrd Path :=
  inferInstanceAs (TransCmp (compareLex (compareOn fun p : Path => p.anchor.rank)
    (compareLex (compareOn (·.prims)) (compareOn (·.property)))))

theorem rank_injective {anchor other : Anchor} (h : anchor.rank = other.rank) :
    anchor = other := by
  cases anchor <;> cases other <;> simp [Anchor.rank] at h ⊢

instance : LawfulEqOrd Path where
  compare_self := ReflCmp.compare_self
  eq_of_compare {p q} h := by
    simp only [compare_eq, Ordering.then_eq_eq, LawfulEqCmp.compare_eq_iff_eq] at h
    obtain ⟨anchor, prims, property⟩ := p
    obtain ⟨anchor', prims', property'⟩ := q
    obtain ⟨hanchor, rfl, rfl⟩ := h
    obtain rfl := rank_injective hanchor
    rfl

instance : Std.IsLinearOrder Path :=
  Std.IsLinearOrder.of_ord

theorem rank_le_of_le (h : p ≤ q) : p.anchor.rank ≤ q.anchor.rank := by
  rw [le_iff, compare_eq, Ordering.isLE_then_iff_and] at h
  exact Nat.isLE_compare.mp h.1

theorem isLE_compare_prims_of_le (h : p ≤ q) (hanchor : p.anchor = q.anchor) :
    (compare p.prims q.prims).isLE = true := by
  rw [le_iff, compare_of_anchor hanchor, Ordering.isLE_then_iff_and] at h
  exact h.1

end Order

/-! ## Subtrees -/

section Subtrees

variable {p top a b c : Path}

/-- A path comes before everything within it. -/
theorem le_of_isWithin (h : p.isWithin top = true) : top ≤ p := by
  obtain rfl | ⟨htop, hanchor, -, rest, hprims⟩ := isWithin_cases h
  · exact Std.le_refl p
  have hbegins : (compare top.prims p.prims).isLE = true :=
    isLE_compare_of_prefix ⟨rest, hprims.symm⟩
  -- Where the prims are the same, only `p` may have a property.
  have hnone : top.property = none := by simpa [isProperty] using htop
  have hproperty : (compare top.property p.property).isLE = true := by
    rw [hnone]
    cases p.property <;> rfl
  rw [le_iff, compare_of_anchor hanchor.symm, Ordering.isLE_then_iff_and]
  exact ⟨hbegins, Or.inr hproperty⟩

/-- Nothing else is within a property. -/
theorem eq_of_isWithin_property (h : p.isWithin top = true) (htop : top.isProperty = true) :
    p = top := by
  obtain heq | ⟨hnot, -⟩ := isWithin_cases h
  · exact heq
  · exact absurd htop (by simp [hnot])

/-- What stands between two paths within the same path is within it too. -/
theorem isWithin_of_between (ha : a.isWithin top = true) (hc : c.isWithin top = true)
    (hab : a ≤ b) (hbc : b ≤ c) : b.isWithin top = true := by
  cases htop : top.isProperty with
  | true =>
    obtain rfl := eq_of_isWithin_property ha htop
    obtain rfl := eq_of_isWithin_property hc htop
    obtain rfl : c = b := Std.le_antisymm hab hbc
    exact hc
  | false =>
    -- All of them start at the same place, so their prims decide.
    have hlower := rank_le_of_le hab
    have hupper := rank_le_of_le hbc
    rw [anchor_of_isWithin ha] at hlower
    rw [anchor_of_isWithin hc] at hupper
    have hanchor : b.anchor = top.anchor := rank_injective (Nat.le_antisymm hupper hlower)
    obtain ⟨more, property, rfl⟩ := exists_below htop ha
    obtain ⟨more', property', rfl⟩ := exists_below htop hc
    have hbegins : top.prims <+: b.prims :=
      prefix_of_between (List.prefix_append _ _) (List.prefix_append _ _)
        (isLE_compare_prims_of_le hab hanchor.symm) (isLE_compare_prims_of_le hbc hanchor)
    obtain ⟨rest, hrest⟩ := hbegins
    refine isWithin_of_prims rest ?_ hanchor htop hrest.symm
    have hempty := isEmpty_of_isWithin ha
    rw [isEmpty, hanchor]
    exact hempty

end Subtrees

/-! ## Ascending lists -/

/-- Whether no path of a list comes before the one that stands before it. -/
def Ascending (paths : List Path) : Prop :=
  paths.Pairwise (· ≤ ·)

/-- Whether every path of a list stands before the others that are within it. -/
def TopsFirst (paths : List Path) : Prop :=
  paths.Pairwise fun p q => p.isWithin q = true → p = q

/-- Whether the paths within `top` stand next to each other in a list. -/
def IsStretchOf (top : Path) (paths : List Path) : Prop :=
  ∃ front block back, paths = front ++ (block ++ back) ∧
    (∀ p ∈ block, p.isWithin top = true) ∧ ∀ p ∈ front ++ back, p.isWithin top = false

section Lists

variable {paths : List Path} {top : Path}

theorem ascending_sort (paths : List Path) : Ascending (sort paths) := by
  refine List.pairwise_mergeSort (fun p q r hpq hqr => ?_) (fun p q => ?_) paths
  · exact Std.TransCmp.isLE_trans hpq hqr
  · rw [Bool.or_eq_true]
    exact Std.le_total (a := p) (b := q)

/-- Sorting gives the only ascending list of the same paths. -/
theorem sort_eq_iff {paths sorted : List Path} :
    sort paths = sorted ↔ sorted.Perm paths ∧ Ascending sorted := by
  have hperm : (sort paths).Perm paths := List.mergeSort_perm paths _
  constructor
  · rintro rfl
    exact ⟨hperm, ascending_sort paths⟩
  · rintro ⟨hsorted, hascending⟩
    exact (hperm.trans hsorted.symm).eq_of_pairwise (fun p q _ _ => Std.le_antisymm)
      (ascending_sort paths) hascending

theorem Ascending.topsFirst (h : Ascending paths) : TopsFirst paths :=
  h.imp fun hpq hwithin => Std.le_antisymm hpq (le_of_isWithin hwithin)

/-- A subtree is one stretch of an ascending list. -/
theorem Ascending.isStretchOf (h : Ascending paths) (top : Path) : top.IsStretchOf paths := by
  induction paths with
  | nil => exact ⟨[], [], [], rfl, by simp, by simp⟩
  | cons p paths ih =>
    obtain ⟨hp, hpaths⟩ := List.pairwise_cons.mp h
    obtain ⟨front, block, back, rfl, hblock, hothers⟩ := ih hpaths
    cases hwithin : p.isWithin top with
    | false =>
      refine ⟨p :: front, block, back, rfl, hblock, ?_⟩
      rw [List.cons_append]
      exact List.forall_mem_cons.mpr ⟨hwithin, hothers⟩
    | true =>
      cases block with
      | nil => exact ⟨[], [p], front ++ back, rfl, by simpa using hwithin, hothers⟩
      | cons q block =>
        -- Nothing stands between `p` and the subtree, since it would belong to it.
        have hnil : front = [] := by
          rw [List.eq_nil_iff_forall_not_mem]
          intro r hr
          have hrq : r ≤ q := (List.pairwise_append.mp hpaths).2.2 r hr q (by simp)
          have hbetween : r.isWithin top = true :=
            isWithin_of_between hwithin (hblock q (by simp)) (hp r (by simp [hr])) hrq
          rw [hothers r (by simp [hr])] at hbetween
          exact absurd hbetween (by simp)
        subst hnil
        exact ⟨[], p :: q :: block, back, rfl, List.forall_mem_cons.mpr ⟨hwithin, hblock⟩,
          hothers⟩

end Lists

/-! ## The order of trees -/

/-- The order of paths is total, tells different paths apart and compares bytes.  A path comes
before everything within it, and nothing else stands among what is within it.  So an ascending
list, as sorting gives one, has the tops first and each subtree in one stretch. -/
theorem order_keeps_subtrees :
    Std.IsLinearOrder Path ∧
      (∀ p q : Path, compare p q = p.compareBytes q ∧ (compare p q = .eq ↔ p = q) ∧
        (compare p q ≠ .gt ↔ p ≤ q)) ∧
      (∀ p q : Path, p.isWithin q = true → q ≤ p) ∧
      (∀ top a b c : Path, a.isWithin top = true → c.isWithin top = true → a ≤ b → b ≤ c →
        b.isWithin top = true) ∧
      (∀ paths : List Path, Ascending paths →
        TopsFirst paths ∧ ∀ top : Path, top.IsStretchOf paths) ∧
      ∀ paths sorted : List Path,
        sort paths = sorted ↔ sorted.Perm paths ∧ Ascending sorted := by
  refine ⟨inferInstance, fun p q => ⟨compare_eq_bytes p q, ?_, ?_⟩, fun p q => le_of_isWithin,
    fun top a b c => isWithin_of_between, fun paths h => ⟨h.topsFirst, h.isStretchOf⟩,
    fun paths sorted => sort_eq_iff⟩
  · exact Std.LawfulEqCmp.compare_eq_iff_eq
  · exact Ordering.isLE_iff_ne_gt.symm

/-- The subtree of `/rig` ends before `/rig_2`, whose name goes on, and a property stands
between a prim and its children.  What goes up comes before what goes down. -/
theorem order_keeps_subtrees_of_rig :
    let rig : Path := ⟨.absolute, ["rig"], none⟩
    let size : Path := ⟨.absolute, ["rig"], some "size"⟩
    let arm : Path := ⟨.absolute, ["rig", "arm"], none⟩
    let arm2 : Path := ⟨.absolute, ["rig", "arm_2"], none⟩
    let rig2 : Path := ⟨.absolute, ["rig_2"], none⟩
    let up : Path := ⟨.relative, [".."], none⟩
    let upUp : Path := ⟨.relative, ["..", ".."], none⟩
    let upArm : Path := ⟨.relative, ["..", "arm"], none⟩
    let paths := [here, up, upUp, upArm, rig, size, arm, arm2, rig2]
    (size.isWithin rig = true ∧ rig ≤ size) ∧
      ((size.isWithin rig = true ∧ arm2.isWithin rig = true ∧ size ≤ arm ∧ arm ≤ arm2) ∧
        arm.isWithin rig = true) ∧
      (Ascending paths ∧ TopsFirst paths ∧ rig.IsStretchOf paths ∧ up.IsStretchOf paths) ∧
      sort [rig2, arm, here, size, upArm, arm2, up, rig, upUp] = paths := by
  intro rig size arm arm2 rig2 up upUp upArm paths
  obtain ⟨-, -, hbefore, hbetween, hlists, hsort⟩ := order_keeps_subtrees
  have hsize : size.isWithin rig = true := by decide +kernel
  have harm2 : arm2.isWithin rig = true := by decide +kernel
  have hsizeArm : size ≤ arm := by decide +kernel
  have harmArm2 : arm ≤ arm2 := by decide +kernel
  have hpaths : Ascending paths := by
    rw [Ascending]
    decide +kernel
  have hperm : paths.Perm [rig2, arm, here, size, upArm, arm2, up, rig, upUp] := by decide +kernel
  obtain ⟨htops, hstretch⟩ := hlists paths hpaths
  exact ⟨⟨hsize, hbefore size rig hsize⟩,
    ⟨⟨hsize, harm2, hsizeArm, harmArm2⟩,
      hbetween rig size arm arm2 hsize harm2 hsizeArm harmArm2⟩,
    ⟨hpaths, htops, hstretch rig, hstretch up⟩, (hsort _ paths).mpr ⟨hperm, hpaths⟩⟩

end Path

end PathSets
