import Mathlib.Logic.Basic
import Mathlib.Tactic.Common
import PathSets.Path.Edit

/-!
# The elements of a path

`Path.lineage` gives the elements of a path, each as the path that ends in it.
This module says how it goes together with the two other views of what leads to
a path.

* `lineage_below`: where a path goes on from `top` (`Path.below`), its elements go on
  from those of `top`.
* `lineage_of_parent`: the last step to a path is the path itself, and the steps
  before it are those of its parent.
* `lineage_of_isWithin`: the steps to a path within `top` begin with the steps to
  `top`.
* `isWithin_of_mem_lineage`: every step to a path leads to it.
-/

namespace PathSets.Path

variable {p q top : Path} {rest rest' : List String} {property property' : Option String}

@[simp] theorem length_lineage (p : Path) : p.lineage.length = p.elementCount := by
  cases h : p.property <;> simp [lineage, elementCount, isProperty, h]

/-- The lineage of a path that is no property, as prefixes of its prims. -/
theorem lineage_of_not_isProperty (h : p.isProperty = false) :
    p.lineage =
      (List.range p.prims.length).map fun i =>
        { anchor := p.anchor, prims := p.prims.take (i + 1) } := by
  simp [lineage, h]

/-- The elements of a property are those of its prim and then the property. -/
theorem lineage_of_isProperty (h : p.isProperty = true) :
    p.lineage = lineage { p with property := none } ++ [p] := by
  have hsome : p.property.isSome = true := h
  simp [lineage, hsome, isProperty]

/-! ## Going on from a path -/

/-- The path that goes on from `top`. -/
def below (top : Path) (rest : List String) (property : Option String) : Path :=
  { anchor := top.anchor, prims := top.prims ++ rest, property }

theorem below_nil (htop : top.isProperty = false) : top.below [] none = top := by
  obtain ⟨anchor, prims, property⟩ := top
  obtain rfl : property = none := by simpa [isProperty] using htop
  simp [below]

theorem below_inj :
    top.below rest property = top.below rest' property' ↔ rest = rest' ∧ property = property' := by
  simp [below]

/-- The elements by which a path goes on from `top`. -/
def elementsBelow (top : Path) (rest : List String) (property : Option String) : List Path :=
  ((List.range rest.length).map fun i => top.below (rest.take (i + 1)) none) ++
    if property.isSome then [top.below rest property] else []

theorem elementsBelow_cons (top : Path) (name : String) (rest : List String)
    (property : Option String) :
    top.elementsBelow (name :: rest) property =
      top.below [name] none :: (top.below [name] none).elementsBelow rest property := by
  have hbelow : ∀ rest property,
      (top.below [name] none).below rest property = top.below (name :: rest) property := by
    intro rest property
    simp [below]
  simp [elementsBelow, List.range_succ_eq_map, hbelow, Function.comp_def]

theorem lineage_below (htop : top.isProperty = false) :
    (top.below rest property).lineage = top.lineage ++ top.elementsBelow rest property := by
  have hprims : (List.range (top.prims ++ rest).length).map (fun i =>
        ({ anchor := top.anchor, prims := (top.prims ++ rest).take (i + 1) } : Path)) =
      top.lineage ++ (List.range rest.length).map fun i => top.below (rest.take (i + 1)) none := by
    rw [lineage_of_not_isProperty htop, List.length_append, List.range_add, List.map_append,
      List.map_map]
    congr 1
    · apply List.map_congr_left
      intro i hi
      rw [List.mem_range] at hi
      rw [List.take_append_of_le_length (by omega)]
    · apply List.map_congr_left
      intro i _
      simp only [Function.comp_apply, below, Nat.add_assoc, List.take_length_add_append]
  rw [lineage, elementsBelow, ← List.append_assoc, ← hprims]
  rfl

/-- One more prim is one more element. -/
theorem lineage_concat (anchor : Anchor) (prims : List String) (name : String) :
    lineage { anchor, prims := prims ++ [name] } =
      lineage { anchor, prims } ++ [{ anchor, prims := prims ++ [name] }] := by
  have hbelow : (below { anchor, prims } [name] none).lineage = _ := lineage_below rfl
  exact hbelow

/-! ## Parents -/

/-- The last element of a path comes after the elements of its parent. -/
theorem lineage_of_parent (h : p.parent? = some q) : p.lineage = q.lineage ++ [p] := by
  unfold parent? at h
  split at h
  · next hprop =>
    rw [← Option.some.inj h]
    exact lineage_of_isProperty hprop
  · next hprop =>
    split at h
    · exact absurd h (by simp)
    · next hne =>
      obtain ⟨anchor, prims, property⟩ := p
      obtain rfl : property = none := by simpa [isProperty] using hprop
      have hnil : prims ≠ [] := by simpa using hne
      have hlast := lineage_concat anchor prims.dropLast (prims.getLast hnil)
      rw [List.dropLast_concat_getLast hnil] at hlast
      rw [← Option.some.inj h]
      exact hlast

/-- A parent starts where the path starts. -/
theorem anchor_of_parent (h : p.parent? = some q) : q.anchor = p.anchor := by
  unfold parent? at h
  split at h
  · rw [← Option.some.inj h]
  · split at h
    · exact absurd h (by simp)
    · rw [← Option.some.inj h]

/-- Only a path without elements has no parent. -/
theorem parent?_eq_none : p.parent? = none ↔ p.elementCount = 0 := by
  cases h : p.property <;> simp [parent?, elementCount, isProperty, h]

/-- A path with elements is the last of them. -/
theorem lineage_eq_concat (h : p.elementCount ≠ 0) : p.lineage = p.lineage.dropLast ++ [p] := by
  cases hp : p.parent? with
  | none => exact absurd (parent?_eq_none.mp hp) h
  | some q => rw [lineage_of_parent hp, List.dropLast_concat]

/-! ## Paths within a path -/

theorem isWithin_of_prims (rest : List String) (hempty : p.isEmpty = false)
    (hanchor : p.anchor = top.anchor) (htop : top.isProperty = false)
    (hprims : p.prims = top.prims ++ rest) : p.isWithin top = true := by
  have hempty' : top.isEmpty = false := by simpa [isEmpty, hanchor] using hempty
  simp [isWithin, hempty, hempty', hanchor, htop, hprims]

theorem isWithin_self (h : p.isEmpty = false) : p.isWithin p = true := by
  simp [isWithin, h]

theorem isEmpty_of_isWithin (h : p.isWithin top = true) : p.isEmpty = false := by
  by_contra hempty
  rw [isWithin, if_pos (by simp [hempty])] at h
  exact absurd h (by simp)

/-- What it takes to be within a path: to be that path, or to go on with its prims
if it is no property. -/
theorem isWithin_cases (h : p.isWithin top = true) :
    p = top ∨ top.isProperty = false ∧ p.anchor = top.anchor ∧ top.isEmpty = false ∧
      ∃ rest, p.prims = top.prims ++ rest := by
  unfold isWithin at h
  split at h
  · exact absurd h (by simp)
  · next hsome =>
    simp only [Bool.or_eq_true, bne_iff_ne, not_or, Bool.not_eq_true, ne_eq, not_not] at hsome
    split at h
    · exact Or.inl (eq_of_beq h)
    · next hprop =>
      obtain ⟨rest, hrest⟩ := List.isPrefixOf_iff_prefix.mp h
      exact Or.inr ⟨by simpa using hprop, hsome.2, hsome.1.2, rest, hrest.symm⟩

theorem anchor_of_isWithin (h : p.isWithin top = true) : p.anchor = top.anchor := by
  obtain rfl | ⟨-, hanchor, -, -⟩ := isWithin_cases h
  · rfl
  · exact hanchor

theorem isWithin_trans (hpq : p.isWithin q = true) (hq : q.isWithin top = true) :
    p.isWithin top = true := by
  obtain rfl | ⟨-, hanchor, -, rest, hprims⟩ := isWithin_cases hpq
  · exact hq
  obtain rfl | ⟨htop, hanchor', -, rest', hprims'⟩ := isWithin_cases hq
  · exact hpq
  · refine isWithin_of_prims (rest' ++ rest) (isEmpty_of_isWithin hpq) (hanchor.trans hanchor')
      htop ?_
    rw [hprims, hprims', List.append_assoc]

theorem exists_below (htop : top.isProperty = false) (h : p.isWithin top = true) :
    ∃ rest property, p = top.below rest property := by
  obtain rfl | ⟨-, hanchor, -, rest, hprims⟩ := isWithin_cases h
  · exact ⟨[], none, (below_nil htop).symm⟩
  · exact ⟨rest, p.property, by rw [below, ← hanchor, ← hprims]⟩

/-- Each of them goes on from `top` by at least one element. -/
theorem exists_of_mem_elementsBelow (h : p ∈ top.elementsBelow rest property) :
    ∃ rest' property', (rest' ≠ [] ∨ property' ≠ none) ∧ p = top.below rest' property' := by
  simp only [elementsBelow, List.mem_append, List.mem_map, List.mem_range] at h
  rcases h with ⟨i, hi, rfl⟩ | h
  · refine ⟨rest.take (i + 1), none, Or.inl ?_, rfl⟩
    rw [← List.length_pos_iff, List.length_take]
    omega
  · split at h
    · next hsome =>
      refine ⟨rest, property, Or.inr ?_, List.mem_singleton.mp h⟩
      rintro rfl
      exact absurd hsome (by simp)
    · exact absurd h (by simp)

/-- The elements of a path within `top` are those of `top` and then more. -/
theorem lineage_of_isWithin (h : p.isWithin top = true) :
    p.lineage = top.lineage ++ p.lineage.drop top.elementCount := by
  suffices hprefix : ∃ more, p.lineage = top.lineage ++ more by
    obtain ⟨more, hmore⟩ := hprefix
    rw [hmore, ← length_lineage, List.drop_left]
  obtain rfl | ⟨htop, -, -, -⟩ := isWithin_cases h
  · exact ⟨[], (List.append_nil _).symm⟩
  · obtain ⟨rest, property, rfl⟩ := exists_below htop h
    exact ⟨_, lineage_below htop⟩

/-- Every element of a path leads to it. -/
theorem isWithin_of_mem_lineage (hempty : p.isEmpty = false) (h : q ∈ p.lineage) :
    p.isWithin q = true := by
  simp only [lineage, List.mem_append, List.mem_map, List.mem_range] at h
  rcases h with ⟨i, _, rfl⟩ | h
  · exact isWithin_of_prims (p.prims.drop (i + 1)) hempty rfl rfl (by simp)
  · split at h
    · rw [List.mem_singleton.mp h]
      exact isWithin_self hempty
    · exact absurd h (by simp)

theorem elementCount_le_of_mem_lineage (h : q ∈ p.lineage) :
    q.elementCount ≤ p.elementCount := by
  simp only [lineage, List.mem_append, List.mem_map, List.mem_range] at h
  rcases h with ⟨i, _, rfl⟩ | h
  · simp only [elementCount, List.length_take, Option.toList_none, List.length_nil]
    omega
  · split at h
    · exact Nat.le_of_eq (congrArg elementCount (List.mem_singleton.mp h))
    · exact absurd h (by simp)

/-- The elements before the last one have fewer elements. -/
theorem elementCount_lt_of_mem_dropLast (h : q ∈ p.lineage.dropLast) :
    q.elementCount < p.elementCount := by
  cases hparent : p.parent? with
  | none =>
    have hnil : p.lineage = [] := by
      rw [← List.length_eq_zero_iff, length_lineage]
      exact parent?_eq_none.mp hparent
    simp [hnil] at h
  | some top =>
    have hcount : p.elementCount = top.elementCount + 1 := by
      simpa using congrArg List.length (lineage_of_parent hparent)
    rw [lineage_of_parent hparent, List.dropLast_concat] at h
    have := elementCount_le_of_mem_lineage h
    omega

/-- A path has at least the elements of a path that leads to it. -/
theorem elementCount_le_of_isWithin (h : p.isWithin top = true) :
    top.elementCount ≤ p.elementCount := by
  have hlength := congrArg List.length (lineage_of_isWithin h)
  rw [List.length_append, length_lineage, length_lineage] at hlength
  omega

/-- The root has no elements, and every absolute path is within it. -/
theorem of_isRoot (h : top.isRoot = true) :
    top.isAbsolute = true ∧ (∀ p : Path, p.isAbsolute = true → p.isWithin top = true) ∧
      top.lineage = [] := by
  obtain ⟨anchor, prims, property⟩ := top
  simp only [isRoot, isAbsolute, isProperty, Bool.and_eq_true, beq_iff_eq, List.isEmpty_iff,
    Bool.not_eq_true', Option.isSome_eq_false_iff, Option.isNone_iff_eq_none] at h
  obtain ⟨⟨rfl, rfl⟩, rfl⟩ := h
  refine ⟨rfl, fun p hp => ?_, rfl⟩
  have hanchor : p.anchor = .absolute := eq_of_beq hp
  exact isWithin_of_prims p.prims (by simp [isEmpty, hanchor]) hanchor rfl rfl

/-- Every other absolute path has elements. -/
theorem elementCount_ne_zero (habs : top.isAbsolute = true) (hroot : ¬top.isRoot = true) :
    top.elementCount ≠ 0 := by
  intro hcount
  refine hroot ?_
  simp only [elementCount, Nat.add_eq_zero_iff, List.length_eq_zero_iff,
    Option.toList_eq_nil_iff] at hcount
  simp [isRoot, habs, hcount.1, isProperty, hcount.2]

end PathSets.Path
