import Mathlib.Data.List.Chain
import PathSets.Expression.Relocation
import PathSets.Proofs.PatternForm

/-!
# What building patterns keeps

`Pattern.Reachable` are the patterns that come of parsing, appending, removing and moving,
in any order, with any texts, predicates and bases.  An append that is refused counts too,
because it leaves a pattern behind; all that an append may leave is listed in
`after_appendChild_cases` and `after_appendProperty_cases`.

Not all of them can be written and read back, but all are `Pattern.Orderly`: no two
stretches stand side by side, and a property is no stretch.  So an orderly pattern from
the root that consists of stretches is `//` (`Orderly.eq_everything`).
-/

namespace PathSets.Pattern

variable {p q : Pattern} {c : Component} {components : List Component} {isProperty : Bool}
  {name : String} {condition : Option Predicate} {refused : Refused}

/-! ## Orderly patterns -/

/-- No two stretches stand side by side, and a property is no stretch. -/
structure Orderly (p : Pattern) : Prop where
  apart : p.components.IsChain fun c d => (c.isStretch && d.isStretch) = false
  property : p.isProperty = true → ∀ c ∈ p.components.getLast?, c.isStretch = false

theorem orderly_of_nil (h : p.components = []) : p.Orderly where
  apart := h ▸ .nil
  property _ c hc := absurd hc (by simp [h])

/-- Bases do not count. -/
theorem Orderly.of_eq (hp : p.Orderly) (hcomponents : q.components = p.components)
    (hproperty : q.isProperty = p.isProperty) : q.Orderly where
  apart := hcomponents ▸ hp.apart
  property := hcomponents ▸ hproperty ▸ hp.property

/-- A component that may be added: one that is no stretch, or a stretch after none. -/
theorem Orderly.extend (hp : p.Orderly) (hopen : p.isProperty = false)
    (hstretch : c.isStretch = true → p.hasTrailingStretch = false)
    (hlast : isProperty = true → c.isStretch = false) :
    Orderly { p with components := p.components ++ [c], isProperty } where
  apart := by
    refine hp.apart.append (List.isChain_singleton c) fun d hd x hx => ?_
    obtain rfl : c = x := Option.some.inj hx
    by_cases hc : c.isStretch = true
    · have hnone := hstretch hc
      rw [hasTrailingStretch, hopen, Option.mem_def.mp hd] at hnone
      simpa [hc] using hnone
    · simp [hc]
  property hproperty d hd := by
    obtain rfl : c = d := by simpa using hd
    exact hlast hproperty

/-- The same for a component that is no stretch. -/
theorem Orderly.addPlain (hp : p.Orderly) (hopen : p.isProperty = false)
    (hc : c.isStretch = false) (isProperty : Bool) :
    Orderly { p with components := p.components ++ [c], isProperty } :=
  hp.extend hopen (fun hstretch => absurd hstretch (by simp [hc])) fun _ => hc

theorem Orderly.addStretch (hp : p.Orderly) (hopen : p.isProperty = false)
    (hstretch : p.hasTrailingStretch = false) :
    Orderly { p with components := p.components ++ [.stretch], isProperty := false } :=
  hp.extend hopen (fun _ => hstretch) nofun

theorem Orderly.dropLast (hp : p.Orderly) :
    Orderly { p with components := p.components.dropLast, isProperty := false } where
  apart := hp.apart.dropLast
  property := nofun

theorem Orderly.eq_everything (hp : p.Orderly) (hroot : p.base.isRoot = true)
    (hne : p.components ≠ []) (hall : ∀ c ∈ p.components, c.isStretch = true) :
    p = everything := by
  obtain ⟨⟨anchor, prims, property⟩, components, isProperty⟩ := p
  obtain ⟨c, rest, rfl⟩ := List.exists_cons_of_ne_nil hne
  have hc : c.isStretch = true := hall c (by simp)
  have hrest : rest = [] := by
    cases rest with
    | nil => rfl
    | cons d rest =>
      have hd : d.isStretch = true := hall d (by simp)
      have hapart := hp.apart.rel_head? (List.head?_cons)
      simp [hc, hd] at hapart
  subst hrest
  obtain rfl : isProperty = false := by
    by_contra hproperty
    have hlast := hp.property (by simpa using hproperty) c (by simp)
    simp [hc] at hlast
  obtain rfl : c = .stretch := Component.eq_stretch hc
  simp only [Path.isRoot, Path.isAbsolute, Path.isProperty, Bool.and_eq_true, beq_iff_eq,
    List.isEmpty_iff, Bool.not_eq_true', Option.isSome_eq_false_iff, Option.isNone_iff_eq_none]
    at hroot
  obtain ⟨⟨rfl, rfl⟩, rfl⟩ := hroot
  rfl

/-! ## What is well formed is orderly -/

theorem Continues.orderly (h : Continues isProperty p components) (hp : p.Orderly)
    (hopen : p.isProperty = false) :
    Orderly { p with components := p.components ++ components, isProperty } := by
  -- Every component but the last is added to a pattern that stays open.
  induction h with
  | done hproperty => exact hp.of_eq (by simp) (hproperty.trans hopen.symm)
  | stretch hstretch _ ih =>
    have hadd := hp.addStretch hopen hstretch
    exact (ih (hadd.of_eq rfl hopen) hopen).of_eq (by simp [add]) rfl
  | element hc _ _ _ ih =>
    have hadd := hp.addPlain hopen hc.isStretch false
    exact (ih (hadd.of_eq rfl hopen) hopen).of_eq (by simp [add]) rfl
  | property _ hc _ _ => exact hp.addPlain hopen hc.isStretch _

theorem WellFormed.orderly (hp : p.WellFormed) : p.Orderly := by
  by_cases hproperty : p.base.isProperty = true
  · exact orderly_of_nil (hp.property hproperty).1
  · have hcontinues := hp.components (by simpa using hproperty)
    exact (hcontinues.orderly (orderly_of_nil rfl) rfl).of_eq (by simp) rfl

/-! ## Building -/

/-- The pattern after an append, also after one that is refused. -/
def after : Except Refused Pattern → Pattern
  | .ok p => p
  | .error refused => refused.pattern

/-- The patterns that can be built. -/
inductive Reachable : Pattern → Prop
  | empty : Reachable empty
  | everything : Reachable everything
  | everyDescendant : Reachable everyDescendant
  | ofPath (base : Path) : Reachable (ofPath base)
  | parse {text : String} {p : Pattern} (h : parse text = .ok p) : Reachable p
  | appendChild {p : Pattern} (hp : Reachable p) (text : String) (condition : Option Predicate) :
      Reachable (after (p.appendChild text condition))
  | appendProperty {p : Pattern} (hp : Reachable p) (text : String)
      (condition : Option Predicate) : Reachable (after (p.appendProperty text condition))
  | appendStretch {p : Pattern} (hp : Reachable p) : Reachable p.appendStretch
  | removeTrailingStretch {p : Pattern} (hp : Reachable p) : Reachable p.removeTrailingStretch
  | removeTrailingComponent {p : Pattern} (hp : Reachable p) :
      Reachable p.removeTrailingComponent
  | setBase {p : Pattern} (hp : Reachable p) (base : Path) : Reachable (p.setBase base)

@[simp] theorem components_grounded (p : Pattern) : p.grounded.components = p.components := by
  unfold grounded
  split <;> rfl

@[simp] theorem isProperty_grounded (p : Pattern) : p.grounded.isProperty = p.isProperty := by
  unfold grounded
  split <;> rfl

@[simp] theorem isEmpty_grounded (p : Pattern) : p.grounded.base.isEmpty = false := by
  by_cases hempty : p.base.isEmpty = true
  · rw [Pattern.grounded, if_pos hempty]
    rfl
  · rw [Pattern.grounded, if_neg hempty]
    simpa using hempty

@[simp] theorem grounded_grounded (p : Pattern) : p.grounded.grounded = p.grounded :=
  grounded_of_not_isEmpty (isEmpty_grounded p)

@[simp] theorem hasTrailingStretch_grounded (p : Pattern) :
    p.grounded.hasTrailingStretch = p.hasTrailingStretch := by
  simp [hasTrailingStretch]

theorem isRoot_grounded (p : Pattern) : p.grounded.base.isRoot = p.base.isRoot := by
  by_cases hempty : p.base.isEmpty = true
  · have hanchor : p.base.anchor = .empty := by simpa [Path.isEmpty] using hempty
    rw [Pattern.grounded, if_pos hempty, Path.isRoot, Path.isRoot, Path.isAbsolute,
      Path.isAbsolute, hanchor]
    rfl
  · rw [Pattern.grounded, if_neg hempty]

/-! ### Appends

An append grounds the pattern first, but only if it gets that far. -/

/-- A child that is appended might have been appended to the grounded pattern. -/
theorem appendChild_grounded (h : p.appendChild name condition = .ok q) :
    p.isProperty = false ∧ p.grounded.appendChild name condition = .ok q := by
  unfold Pattern.appendChild at h ⊢
  rw [isProperty_grounded, grounded_grounded]
  split at h
  · exact absurd h (by simp)
  next hopen =>
  rw [if_neg hopen]
  refine ⟨by simpa using hopen, ?_⟩
  split at h
  · exact absurd h (by simp)
  · exact h

theorem appendProperty_grounded (h : p.appendProperty name condition = .ok q) :
    p.isProperty = false ∧ p.grounded.appendProperty name condition = .ok q := by
  have hcan : p.grounded.canAppendProperty name = p.canAppendProperty name := by
    have hroot : p.grounded.base.isRoot = p.base.isRoot := isRoot_grounded p
    simp [canAppendProperty, hroot]
  unfold Pattern.appendProperty at h ⊢
  rw [hcan, grounded_grounded]
  split at h
  · exact absurd h (by simp)
  split at h
  · next hcan =>
    rw [if_pos hcan]
    simp only [canAppendProperty, Bool.and_eq_true, Bool.not_eq_true'] at hcan
    exact ⟨hcan.1.1, h⟩
  · exact absurd h (by simp)

/-- A refused child leaves the pattern, which may have become relative. -/
theorem refused_appendChild (h : p.appendChild name condition = .error refused) :
    refused.pattern = p ∨ refused.pattern = p.grounded := by
  unfold Pattern.appendChild at h
  split at h
  · exact Or.inl (congrArg Refused.pattern (Except.error.inj h)).symm
  split at h
  · exact Or.inl (congrArg Refused.pattern (Except.error.inj h)).symm
  dsimp only at h
  split at h
  · split at h
    · exact absurd h (by simp)
    split at h
    · split at h
      · exact absurd h (by simp)
      · exact Or.inr (congrArg Refused.pattern (Except.error.inj h)).symm
    split at h
    · exact Or.inr (congrArg Refused.pattern (Except.error.inj h)).symm
    · exact absurd h (by simp)
  · split at h
    · exact absurd h (by simp)
    split at h
    · exact Or.inr (congrArg Refused.pattern (Except.error.inj h)).symm
    · exact absurd h (by simp)

/-- A refused property leaves the pattern, which may have become ready for one. -/
theorem refused_appendProperty (h : p.appendProperty name condition = .error refused) :
    refused.pattern = p ∨ p.isProperty = false ∧ refused.pattern = p.grounded.closed := by
  unfold Pattern.appendProperty at h
  split at h
  · exact Or.inl (congrArg Refused.pattern (Except.error.inj h)).symm
  split at h
  swap
  · exact Or.inl (congrArg Refused.pattern (Except.error.inj h)).symm
  next hcan =>
  simp only [canAppendProperty, Bool.and_eq_true, Bool.not_eq_true'] at hcan
  dsimp only at h
  split at h
  · split at h
    · exact absurd h (by simp)
    · exact Or.inr ⟨hcan.1.1, (congrArg Refused.pattern (Except.error.inj h)).symm⟩
  · exact absurd h (by simp)

/-- What an append of a child leaves behind: the pattern, perhaps made relative, with a
stretch, with another base, or with one more element. -/
theorem after_appendChild_cases (p : Pattern) (name : String) (condition : Option Predicate) :
    after (p.appendChild name condition) = p ∨
      after (p.appendChild name condition) = p.grounded ∨
      after (p.appendChild name condition) = p.grounded.appendStretch ∨
      p.isProperty = false ∧
        ((∃ base, p.grounded.base.child name = .ok base ∧
            after (p.appendChild name condition) = { p.grounded with base }) ∨
          ∃ c, c.HasShape false ∧ (p.components = [] → c.isPlain = false) ∧
            after (p.appendChild name condition) = p.grounded.add c) := by
  cases h : p.appendChild name condition with
  | error refused =>
    rcases refused_appendChild h with hsame | hground
    · exact Or.inl hsame
    · exact Or.inr (Or.inl hground)
  | ok q =>
    obtain ⟨hopen, hground⟩ := appendChild_grounded h
    have hopen' := (isProperty_grounded p).trans hopen
    obtain ⟨-, -, hq⟩ | ⟨base, -, -, hchild, hq⟩ | ⟨predicate, -, hq⟩ |
      ⟨shape, hshape, hempty, hup, hplain, hq⟩ :=
      appendChild_cases hopen' (isEmpty_grounded p) hground
    · exact Or.inr (Or.inr (Or.inl hq))
    · exact Or.inr (Or.inr (Or.inr ⟨hopen, Or.inl ⟨base, hchild, hq⟩⟩))
    · exact Or.inr (Or.inr (Or.inr ⟨hopen, Or.inr ⟨.bare predicate, rfl, fun _ => rfl, hq⟩⟩))
    · rw [components_grounded] at hplain
      exact Or.inr (Or.inr (Or.inr ⟨hopen, Or.inr ⟨.ofShape shape name condition,
        childShape?_eq_some hshape hempty hup, fun hnil => isPlain_ofShape (hplain hnil), hq⟩⟩))

/-- What an append of a property leaves behind: the pattern, perhaps made ready for one, with
a base that is a property, or with the property as its last component. -/
theorem after_appendProperty_cases (p : Pattern) (name : String) (condition : Option Predicate) :
    after (p.appendProperty name condition) = p ∨
      p.isProperty = false ∧
        (after (p.appendProperty name condition) = p.grounded.closed ∨
          (∃ base, p.grounded.closed.components = [] ∧
            after (p.appendProperty name condition) =
              { p.grounded.closed with base, isProperty := true }) ∨
          ∃ c, c.HasShape true ∧ (p.grounded.closed.components = [] → c.isPlain = false) ∧
            after (p.appendProperty name condition) =
              { p.grounded.closed.add c with isProperty := true }) := by
  cases h : p.appendProperty name condition with
  | error refused =>
    rcases refused_appendProperty h with hsame | ⟨hopen, hrefused⟩
    · exact Or.inl hsame
    · exact Or.inr ⟨hopen, Or.inl hrefused⟩
  | ok q =>
    obtain ⟨hopen, hground⟩ := appendProperty_grounded h
    obtain ⟨-, ⟨base, hnil, -, hq⟩ | ⟨shape, hshape, hplain, hq⟩⟩ :=
      appendProperty_cases (isEmpty_grounded p) hground
    · exact Or.inr ⟨hopen, Or.inr (Or.inl ⟨base, hnil, hq⟩)⟩
    · exact Or.inr ⟨hopen, Or.inr (Or.inr ⟨.ofShape shape name condition,
        propertyShape?_eq_some hshape, fun hnil => isPlain_ofShape (hplain hnil), hq⟩)⟩

/-! ### What keeps a pattern orderly -/

theorem Orderly.grounded (hp : p.Orderly) : p.grounded.Orderly :=
  hp.of_eq (components_grounded p) (isProperty_grounded p)

theorem Orderly.appendStretch (hp : p.Orderly) : p.appendStretch.Orderly := by
  unfold Pattern.appendStretch
  split
  · exact hp
  next hnot =>
  obtain ⟨hopen, hstretch⟩ : p.isProperty = false ∧ p.hasTrailingStretch = false := by
    simpa using hnot
  exact (hp.addStretch hopen hstretch).of_eq rfl ((isProperty_grounded p).trans hopen)

theorem Orderly.add (hp : p.Orderly) (hopen : p.isProperty = false) (hc : c.isStretch = false) :
    (p.add c).Orderly :=
  (hp.addPlain hopen hc false).of_eq rfl hopen

theorem Orderly.appendChild (hp : p.Orderly) :
    (after (p.appendChild name condition)).Orderly := by
  obtain h | h | h | ⟨hopen, ⟨base, -, h⟩ | ⟨c, hc, -, h⟩⟩ :=
    after_appendChild_cases p name condition
  · exact h.symm ▸ hp
  · exact h.symm ▸ hp.grounded
  · exact h.symm ▸ hp.grounded.appendStretch
  · exact h.symm ▸ hp.grounded.of_eq rfl rfl
  · exact h.symm ▸ hp.grounded.add ((isProperty_grounded p).trans hopen) hc.isStretch

/-- A property never follows a stretch. -/
theorem Orderly.closed (hp : p.Orderly) (hopen : p.isProperty = false) : p.closed.Orderly := by
  unfold Pattern.closed
  split
  · exact hp.add hopen rfl
  · exact hp

theorem isProperty_closed (p : Pattern) : p.closed.isProperty = p.isProperty := by
  unfold closed
  split <;> rfl

theorem Orderly.appendProperty (hp : p.Orderly) :
    (after (p.appendProperty name condition)).Orderly := by
  obtain h | ⟨hopen, hcases⟩ := after_appendProperty_cases p name condition
  · exact h.symm ▸ hp
  have hopen' := (isProperty_grounded p).trans hopen
  have hclosed := hp.grounded.closed hopen'
  obtain h | ⟨base, hnil, h⟩ | ⟨c, hc, -, h⟩ := hcases
  · exact h.symm ▸ hclosed
  · exact h.symm ▸ orderly_of_nil hnil
  · exact h.symm ▸ hclosed.addPlain ((isProperty_closed _).trans hopen') hc.isStretch true

theorem Orderly.removeTrailingStretch (hp : p.Orderly) : p.removeTrailingStretch.Orderly := by
  unfold Pattern.removeTrailingStretch
  split
  · next hstretch =>
    have hopen : p.isProperty = false := by
      simp only [hasTrailingStretch, Bool.and_eq_true, Bool.not_eq_true'] at hstretch
      exact hstretch.1
    exact hp.dropLast.of_eq rfl hopen
  · exact hp

theorem Orderly.removeTrailingComponent (hp : p.Orderly) :
    p.removeTrailingComponent.Orderly := by
  unfold Pattern.removeTrailingComponent
  split
  · exact hp
  · exact hp.dropLast

theorem Orderly.setBase (hp : p.Orderly) (base : Path) : (p.setBase base).Orderly := by
  unfold Pattern.setBase
  split
  · exact orderly_of_nil rfl
  split
  · exact orderly_of_nil rfl
  · exact hp.of_eq rfl rfl

theorem orderly_everything : everything.Orderly :=
  (orderly_of_nil (p := { base := .root }) rfl).addStretch rfl rfl

/-- Everything that can be built is orderly. -/
theorem Reachable.orderly (h : p.Reachable) : p.Orderly := by
  induction h with
  | empty => exact orderly_of_nil rfl
  | everything => exact orderly_everything
  | everyDescendant => exact orderly_everything.of_eq rfl rfl
  | ofPath base => exact (orderly_of_nil rfl).setBase base
  | parse h => exact (wellFormed_of_parse h).orderly
  | appendChild _ _ _ ih => exact ih.appendChild
  | appendProperty _ _ _ ih => exact ih.appendProperty
  | appendStretch _ ih => exact ih.appendStretch
  | removeTrailingStretch _ ih => exact ih.removeTrailingStretch
  | removeTrailingComponent _ ih => exact ih.removeTrailingComponent
  | setBase _ base ih => exact ih.setBase base

/-! ## Moving -/

theorem Orderly.anchorAt {anchor : Path} (hp : p.Orderly) (h : p.anchorAt anchor = .ok q) :
    q.Orderly := by
  unfold Pattern.anchorAt at h
  split at h
  · obtain rfl := Except.ok.inj h
    exact hp
  · obtain ⟨base, -, h⟩ := bind_eq_ok.mp h
    obtain rfl := Except.ok.inj h
    exact hp.setBase base

theorem Orderly.rebase (hp : p.Orderly) (old new : Path) : (p.rebase old new).Orderly := by
  rw [Pattern.rebase]
  split
  · exact hp
  · exact hp.setBase _

end PathSets.Pattern
