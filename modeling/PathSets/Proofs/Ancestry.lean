import Mathlib.Data.List.Chain
import Mathlib.Data.List.Induction
import Mathlib.Logic.Relation
import PathSets.Proofs.Lineage

/-!
# Ancestors

Three ways to say what leads to a path agree.  A path is within another if and only if going to
the parent leads from it there (`Path.isWithin_iff_hasAncestor`), and its lineage is the chain of
itself and those of its ancestors that have elements (`Path.mem_lineage_iff`,
`Path.isChain_lineage`).

A parent has one element less, so the proofs go up from a path to its parent
(`Path.parentInduction`).
-/

namespace PathSets.Path

variable {p q top : Path} {rest : List String} {property : Option String} {name : String}

/-! ## Going to the parent -/

/-- Whether the path or a path that its parents lead to is `q`. -/
def HasAncestor : Path → Path → Prop :=
  Relation.ReflTransGen fun p q => p.parent? = some q

/-- What a parent is: the prim of a property, or the path without its last prim. -/
theorem parent_cases (h : p.parent? = some q) :
    (p.isProperty = true ∧ q = { p with property := none }) ∨
      p.property = none ∧
        ∃ name, p = { q with prims := q.prims ++ [name] } ∧ q.property = none := by
  rw [parent?] at h
  split at h
  · next hproperty => exact Or.inl ⟨hproperty, (Option.some.inj h).symm⟩
  next hproperty =>
  split at h
  · exact absurd h (by simp)
  next hne =>
  obtain ⟨anchor, prims, property⟩ := p
  obtain rfl : property = none := by simpa [isProperty] using hproperty
  obtain rfl := Option.some.inj h
  have hnil : prims ≠ [] := by simpa using hne
  refine Or.inr ⟨rfl, prims.getLast hnil, ?_, rfl⟩
  rw [List.dropLast_concat_getLast hnil]

theorem elementCount_of_parent (h : p.parent? = some q) :
    p.elementCount = q.elementCount + 1 := by
  have hlength := congrArg List.length (lineage_of_parent h)
  rwa [List.length_append, length_lineage, length_lineage] at hlength

/-- What holds of a path if it holds of its parent holds of all. -/
theorem parentInduction {motive : Path → Prop}
    (step : ∀ p, (∀ q, p.parent? = some q → motive q) → motive p) (p : Path) : motive p := by
  induction hcount : p.elementCount using Nat.strongRecOn generalizing p with
  | ind count ih =>
    refine step p fun q hq => ih q.elementCount ?_ q rfl
    rw [← hcount, elementCount_of_parent hq]
    exact Nat.lt_succ_self _

/-! ## Ancestors and prefixes -/

theorem isWithin_of_parent (hempty : p.isEmpty = false) (h : p.parent? = some q) :
    p.isWithin q = true := by
  have hanchor : p.anchor = q.anchor := (anchor_of_parent h).symm
  obtain ⟨-, rfl⟩ | ⟨-, name, rfl, hproperty⟩ := parent_cases h
  · exact isWithin_of_prims [] hempty hanchor rfl (List.append_nil _).symm
  · exact isWithin_of_prims [name] hempty hanchor (by simp [isProperty, hproperty]) rfl

theorem parent?_below_concat :
    (top.below (rest ++ [name]) none).parent? = some (top.below rest none) := by
  simp [parent?, below, isProperty, ← List.append_assoc]

/-- Parents lead from below a path back to it. -/
theorem hasAncestor_below (htop : top.isProperty = false) :
    (top.below rest property).HasAncestor top := by
  have hprims : (top.below rest none).HasAncestor top := by
    induction rest using List.reverseRecOn with
    | nil =>
      rw [below_nil htop]
      exact .refl
    | append_singleton rest name ih => exact .head parent?_below_concat ih
  cases property with
  | none => exact hprims
  | some x => exact .head rfl hprims

/-- A path is within those that its parents lead to. -/
theorem isWithin_iff_hasAncestor :
    p.isWithin q = true ↔ p.isEmpty = false ∧ p.HasAncestor q := by
  constructor
  · intro h
    refine ⟨isEmpty_of_isWithin h, ?_⟩
    obtain rfl | ⟨hq, -⟩ := isWithin_cases h
    · exact .refl
    · obtain ⟨rest, property, rfl⟩ := exists_below hq h
      exact hasAncestor_below hq
  · rintro ⟨hempty, h⟩
    induction h using Relation.ReflTransGen.head_induction_on with
    | refl => exact isWithin_self hempty
    | @head p r hparent _ ih =>
      have hwithin := isWithin_of_parent hempty hparent
      have hr : r.isEmpty = false := by
        rw [isEmpty, anchor_of_parent hparent]
        exact hempty
      exact isWithin_trans hwithin (ih hr)

/-! ## Ancestors and lineage -/

theorem lineage_of_parent?_eq_none (h : p.parent? = none) : p.lineage = [] := by
  rw [← List.length_eq_zero_iff, length_lineage]
  exact parent?_eq_none.mp h

theorem getLast?_lineage (p : Path) :
    p.lineage.getLast? = if p.elementCount = 0 then none else some p := by
  split
  · next hcount => rw [lineage_of_parent?_eq_none (parent?_eq_none.mpr hcount), List.getLast?_nil]
  · next hcount => rw [lineage_eq_concat hcount, List.getLast?_concat]

/-- The lineage has the path and its ancestors, but for the one without elements. -/
theorem mem_lineage_iff : q ∈ p.lineage ↔ p.HasAncestor q ∧ q.elementCount ≠ 0 := by
  induction p using parentInduction with
  | step p ih =>
    rw [HasAncestor, Relation.ReflTransGen.cases_head_iff]
    cases hparent : p.parent? with
    | none =>
      have hcount := parent?_eq_none.mp hparent
      rw [lineage_of_parent?_eq_none hparent]
      simp only [List.not_mem_nil, false_iff, not_and, not_not]
      rintro (rfl | ⟨r, hr, -⟩)
      · exact hcount
      · exact absurd hr (by simp)
    | some r =>
      have hcount : p.elementCount ≠ 0 := by
        rw [elementCount_of_parent hparent]
        exact Nat.succ_ne_zero _
      rw [lineage_of_parent hparent, List.mem_append, List.mem_singleton, ih r hparent]
      constructor
      · rintro (⟨hr, hq⟩ | rfl)
        · exact ⟨Or.inr ⟨r, rfl, hr⟩, hq⟩
        · exact ⟨Or.inl rfl, hcount⟩
      · rintro ⟨rfl | ⟨r', hr', hq⟩, hne⟩
        · exact Or.inr rfl
        · obtain rfl := Option.some.inj hr'
          exact Or.inl ⟨hq, hne⟩

/-- The lineage goes down by one element in each step. -/
theorem isChain_lineage (p : Path) : p.lineage.IsChain fun q r => r.parent? = some q := by
  induction p using parentInduction with
  | step p ih =>
    cases hparent : p.parent? with
    | none =>
      rw [lineage_of_parent?_eq_none hparent]
      exact .nil
    | some r =>
      rw [lineage_of_parent hparent, List.isChain_append]
      refine ⟨ih r hparent, .singleton p, fun q hq p' hp' => ?_⟩
      obtain rfl : p = p' := Option.some.inj hp'
      rw [getLast?_lineage, Option.mem_def] at hq
      rw [hparent, ← (Option.ite_none_left_eq_some.mp hq).2]

theorem map_elementCount_lineage (p : Path) :
    p.lineage.map elementCount = List.range' 1 p.elementCount := by
  induction p using parentInduction with
  | step p ih =>
    cases hparent : p.parent? with
    | none =>
      rw [lineage_of_parent?_eq_none hparent, parent?_eq_none.mp hparent]
      rfl
    | some r =>
      have hcount := elementCount_of_parent hparent
      rw [lineage_of_parent hparent, List.map_append, ih r hparent, hcount, List.range'_concat,
        List.map_singleton, hcount, Nat.one_mul, Nat.add_comm]

/-- What is within a path is what its parents lead to it from, and the lineage of a path is the
chain of itself and its ancestors with elements, the shortest first: as many as it has elements,
each the parent of the next, and the path itself at the end. -/
theorem ancestry_agrees :
    (∀ p q : Path, p.isWithin q = true ↔ p.isEmpty = false ∧ p.HasAncestor q) ∧
      ∀ p : Path,
        (∀ q : Path, q ∈ p.lineage ↔ p.HasAncestor q ∧ q.elementCount ≠ 0) ∧
          p.lineage.length = p.elementCount ∧
          p.lineage.getLast? = (if p.elementCount = 0 then none else some p) ∧
          (p.lineage.IsChain fun q r => r.parent? = some q) ∧
          p.lineage.map elementCount = List.range' 1 p.elementCount :=
  ⟨fun _ _ => isWithin_iff_hasAncestor, fun p =>
    ⟨fun _ => mem_lineage_iff, length_lineage p, getLast?_lineage p, isChain_lineage p,
      map_elementCount_lineage p⟩⟩

/-- A property of what is beside the place where the path starts: `.` leads to it too, but is no
element of it. -/
example :
    lineage ⟨.relative, ["..", "rig"], some "size"⟩ =
        [⟨.relative, [".."], none⟩, ⟨.relative, ["..", "rig"], none⟩,
          ⟨.relative, ["..", "rig"], some "size"⟩] ∧
      isWithin ⟨.relative, ["..", "rig"], some "size"⟩ here = true := by
  decide

end PathSets.Path
