import PathSets.Proofs.PatternInvariant

/-!
# Refused appends

An append may be refused for a few reasons only, and each of them fixes both the error and
the pattern that is left behind (`RefusesChild`, `RefusesProperty`).  The lists are complete
for regular patterns (`Regular.appendChild_eq_error_iff`,
`Regular.appendProperty_eq_error_iff`), so they hold for everything that can be built.

* The queries `canAppendChild` and `canAppendProperty` know all reasons but those that have to
  do with `..`: as a child it has to be possible to go up, and a base that ends in it takes no
  property (`Reachable.append_succeeds_iff`).
* A refused append leaves the pattern as it was, with one exception: where the base is empty
  and the child is `..`, the pattern has become relative (`Reachable.pattern_of_refused`).
-/

namespace PathSets

/-! ## Paths -/

namespace Path

variable {p : Path} {name : String} {error : InvalidPath}

/-- A path that is neither empty nor a property refuses `..` only at its top, and every other
text that is no name. -/
theorem child_eq_error_iff (hempty : p.isEmpty = false) (hproperty : p.isProperty = false) :
    p.child name = .error error ↔
      (name = upElement ∧ p.isAbsolute = true ∧ p.isPrim = false ∧ error = ⟨p.text, .upFromRoot⟩) ∨
        (name ≠ upElement ∧ isIdentifier name.toList = false ∧
          error = ⟨name, .primName name⟩) := by
  have hlast : p.isPrim = p.prims.getLast?.any (· != upElement) := by simp [isPrim, hproperty]
  have habsolute : p.anchor = .relative ∨ p.isAbsolute = true := by
    cases hanchor : p.anchor with
    | empty => simp [isEmpty, hanchor] at hempty
    | relative => exact Or.inl rfl
    | absolute => exact Or.inr (by simp [isAbsolute, hanchor])
  rw [Path.child, if_neg (by simp [hempty]), if_neg (by simp [hproperty]), ← hlast]
  by_cases hup : name = upElement
  · rw [if_pos (by simp [hup])]
    by_cases hprim : p.isPrim = true
    · simp [hprim, hup]
    · rcases habsolute with hrelative | habsolute
      · simp [hprim, hrelative, hup, isAbsolute]
      · have hanchor : p.anchor = .absolute := by simpa [isAbsolute] using habsolute
        simp [hprim, hanchor, hup, isAbsolute, eq_comm (b := error)]
  · rw [if_neg (by simpa using hup)]
    by_cases hname : isIdentifier name.toList = true
    · simp [hname, hup]
    · simp [hname, hup, eq_comm (b := error)]

/-- Only a path that ends in a name, or `.`, has a named property. -/
theorem withProperty_eq_error_iff (hname : isPropertyName name.toList = true) :
    p.withProperty name = .error error ↔
      p.isPrim = false ∧ p.isHere = false ∧ error = ⟨p.text, .propertyOfNoPrim⟩ := by
  rw [Path.withProperty]
  by_cases hkind : (p.isPrim || p.isHere) = true
  · rw [if_neg (by simp [hkind]), if_pos hname]
    rw [Bool.or_eq_true] at hkind
    rcases hkind with hprim | hhere
    · simp [hprim]
    · simp [hhere]
  · rw [if_pos (by simp [hkind])]
    rw [Bool.not_eq_true, Bool.or_eq_false_iff] at hkind
    simp [hkind, eq_comm (b := error)]

/-- What is neither a prim nor `.` nor the root ends in `..`. -/
theorem getLast?_eq_upElement_iff (hempty : p.isEmpty = false) (hproperty : p.isProperty = false) :
    p.prims.getLast? = some upElement ↔
      p.isPrim = false ∧ p.isHere = false ∧ p.isRoot = false := by
  cases hlast : p.prims.getLast? with
  | some name =>
    have hne : p.prims ≠ [] := by
      rintro hnil
      simp [hnil] at hlast
    simp [isPrim, isHere, isRoot, hproperty, hlast, hne]
  | none =>
    have hnil : p.prims = [] := List.getLast?_eq_none_iff.mp hlast
    cases hanchor : p.anchor with
    | empty => simp [isEmpty, hanchor] at hempty
    | relative => simp [isHere, hproperty, hnil, hanchor]
    | absolute => simp [isRoot, isAbsolute, hproperty, hnil, hanchor]

end Path

namespace Pattern

variable {p : Pattern} {text : String} {condition : Option Predicate} {refused : Refused}

/-! ## Children -/

/-- Why a child is refused, and what is left of the pattern. -/
inductive RefusesChild (p : Pattern) (text : String) (condition : Option Predicate) :
    Refused → Prop
  | ended (h : p.isProperty = true) :
      RefusesChild p text condition ⟨⟨p.text, .childOfPropertyPattern⟩, p⟩
  | shapeless (hopen : p.isProperty = false) (h : childShape? text = none) :
      RefusesChild p text condition ⟨⟨text, .childText⟩, p⟩
  | upAfterBase (hopen : p.isProperty = false) (htext : text = upElement)
      (h : p.components ≠ [] ∨ condition.isSome = true) :
      RefusesChild p text condition ⟨⟨p.grounded.text, .upInPattern⟩, p.grounded⟩
  | upFromTop (hopen : p.isProperty = false) (htext : text = upElement)
      (hnil : p.components = []) (hcondition : condition = none)
      (habsolute : p.base.isAbsolute = true) (hprim : p.base.isPrim = false) :
      RefusesChild p text condition ⟨⟨p.base.text, .upFromRoot⟩, p⟩

/-- A literal child is a name, `..` or nothing. -/
theorem childShape?_eq_literal (h : childShape? text = some .literal) :
    text.isEmpty = true ∨ isIdentifier text.toList = true ∨ text = upElement := by
  rw [childShape?] at h
  split at h
  · next hliteral => simpa [or_assoc] using hliteral
  split at h
  · exact absurd h (by simp)
  · exact absurd h (by simp)

/-- Every name, glob, predicate or stretch is taken. -/
theorem Regular.exists_appendChild {shape : Shape} (hp : p.Regular) (hopen : p.isProperty = false)
    (hshape : childShape? text = some shape) (hup : text ≠ upElement)
    (condition : Option Predicate) : ∃ q, p.appendChild text condition = .ok q := by
  have hopen' : p.grounded.isProperty = false := (isProperty_grounded p).trans hopen
  rw [Pattern.appendChild, if_neg (by simp [hopen]), hshape]
  dsimp only
  split
  · split
    · exact ⟨_, rfl⟩
    next hempty =>
    split
    · next hliteral =>
      -- The base has a place for a name.
      rw [Bool.and_eq_true, beq_iff_eq] at hliteral
      obtain rfl := hliteral.2
      have hname : isIdentifier text.toList = true :=
        ((childShape?_eq_literal hshape).resolve_left hempty).resolve_right hup
      cases hchild : p.grounded.base.child text with
      | ok base => exact ⟨_, rfl⟩
      | error error =>
        rcases (Path.child_eq_error_iff (isEmpty_grounded p)
          (hp.grounded.base_isProperty hopen')).mp hchild with ⟨heq, -⟩ | ⟨-, hnone, -⟩
        · exact absurd heq hup
        · exact absurd hname (by simp [hnone])
    · rw [if_neg (by simpa using hup)]
      exact ⟨_, rfl⟩
  · split
    · exact ⟨_, rfl⟩
    · rw [if_neg (by simpa using hup)]
      exact ⟨_, rfl⟩

/-- Going up is left to the base while there is nothing after it, and refused otherwise. -/
theorem appendChild_upElement (hopen : p.isProperty = false) :
    p.appendChild upElement condition =
      if p.components = [] ∧ condition = none then
        match p.grounded.base.child upElement with
        | .ok base => .ok { p.grounded with base }
        | .error error => .error ⟨error, p.grounded⟩
      else .error ⟨⟨p.grounded.text, .upInPattern⟩, p.grounded⟩ := by
  have hshape : childShape? upElement = some .literal := by decide
  have hempty : upElement.isEmpty = false := by decide
  rw [appendChild, if_neg (by simp [hopen]), hshape]
  cases condition with
  | some predicate => simp [hempty]
  | none =>
    by_cases hnil : p.components = []
    · simp only [hempty, hnil, components_grounded]
      cases p.grounded.base.child upElement <;> rfl
    · simp [hempty, hnil]

theorem grounded_of_isAbsolute (h : p.grounded.base.isAbsolute = true) : p.grounded = p := by
  unfold grounded at h ⊢
  split at h
  · exact absurd h (by simp [Path.isAbsolute, Path.here])
  · next hempty => rw [if_neg hempty]

theorem Regular.appendChild_eq_error_iff (hp : p.Regular) :
    p.appendChild text condition = .error refused ↔ p.RefusesChild text condition refused := by
  constructor
  · intro h
    by_cases hproperty : p.isProperty = true
    · rw [Pattern.appendChild, if_pos hproperty] at h
      obtain rfl := Except.error.inj h
      exact .ended hproperty
    have hopen : p.isProperty = false := by simpa using hproperty
    cases hshape : childShape? text with
    | none =>
      rw [Pattern.appendChild, if_neg hproperty, hshape] at h
      obtain rfl := Except.error.inj h
      exact .shapeless hopen hshape
    | some shape =>
      by_cases hup : text = upElement
      · subst hup
        rw [appendChild_upElement hopen] at h
        split at h
        · next hbase =>
          have hopen' : p.grounded.isProperty = false := (isProperty_grounded p).trans hopen
          split at h
          · exact absurd h (by simp)
          next error hchild =>
          obtain rfl := Except.error.inj h
          rcases (Path.child_eq_error_iff (isEmpty_grounded p)
            (hp.grounded.base_isProperty hopen')).mp hchild with
            ⟨-, habsolute, hprim, rfl⟩ | ⟨hne, -⟩
          · have hsame : p.grounded = p := grounded_of_isAbsolute habsolute
            rw [hsame] at habsolute hprim ⊢
            exact .upFromTop hopen rfl hbase.1 hbase.2 habsolute hprim
          · exact absurd rfl hne
        · next hbase =>
          obtain rfl := Except.error.inj h
          refine .upAfterBase hopen rfl ?_
          rwa [not_and_or, ← ne_eq, ← ne_eq, Option.ne_none_iff_isSome] at hbase
      · obtain ⟨q, hq⟩ := hp.exists_appendChild hopen hshape hup condition
        rw [hq] at h
        exact absurd h (by simp)
  · rintro (hproperty | ⟨hopen, hshape⟩ | ⟨hopen, rfl, hbase⟩ |
      ⟨hopen, rfl, hnil, rfl, habsolute, hprim⟩)
    · rw [Pattern.appendChild, if_pos hproperty]
    · rw [Pattern.appendChild, if_neg (by simp [hopen]), hshape]
    · rw [appendChild_upElement hopen, if_neg]
      rwa [not_and_or, ← ne_eq, ← ne_eq, Option.ne_none_iff_isSome]
    · have hempty : p.base.isEmpty = false := Path.isEmpty_of_isAbsolute habsolute
      have hchild : p.base.child upElement = .error ⟨p.base.text, .upFromRoot⟩ :=
        (Path.child_eq_error_iff hempty (hp.base_isProperty hopen)).mpr
          (Or.inl ⟨rfl, habsolute, hprim, rfl⟩)
      rw [appendChild_upElement hopen, if_pos ⟨hnil, rfl⟩, grounded_of_not_isEmpty hempty, hchild]

/-! ## Properties -/

/-- Why a property is refused, and what is left of the pattern. -/
inductive RefusesProperty (p : Pattern) (text : String) (condition : Option Predicate) :
    Refused → Prop
  | asked (h : p.canAppendProperty text = false) :
      RefusesProperty p text condition ⟨⟨p.text ++ "." ++ text, .propertyOfPattern⟩, p⟩
  | ofUp (hcan : p.canAppendProperty text = true) (hname : isPropertyName text.toList = true)
      (hnil : p.components = []) (hcondition : condition = none)
      (hempty : p.isEmpty = false) (hup : p.base.prims.getLast? = some upElement) :
      RefusesProperty p text condition ⟨⟨p.base.text, .propertyOfNoPrim⟩, p⟩

theorem canAppendProperty_iff :
    p.canAppendProperty text = true ↔
      p.isProperty = false ∧ (p.base.isRoot = true → p.components ≠ []) ∧
        ∃ shape, propertyShape? text = some shape := by
  simp [canAppendProperty, Option.isSome_iff_exists, and_assoc, imp_iff_not_or]

theorem propertyShape?_eq_literal (h : propertyShape? text = some .literal) :
    isPropertyName text.toList = true := by
  rw [propertyShape?] at h
  split at h
  · next hname => exact hname
  split at h
  · exact absurd h (by simp)
  · exact absurd h (by simp)

/-- What is done with a property that the query allows: while there are no components, a name
without a predicate is left to the base. -/
theorem appendProperty_of_can {shape : Shape} (hcan : p.canAppendProperty text = true)
    (hshape : propertyShape? text = some shape) :
    p.appendProperty text condition =
      if p.grounded.closed.components = [] ∧ condition = none ∧ shape = .literal then
        match p.grounded.closed.base.withProperty text with
        | .ok base => .ok { p.grounded.closed with base, isProperty := true }
        | .error error => .error ⟨error, p.grounded.closed⟩
      else
        .ok { p.grounded.closed.add (.ofShape shape text condition) with isProperty := true } := by
  rw [Pattern.appendProperty, hshape]
  dsimp only
  rw [if_pos hcan]
  by_cases hbase : p.grounded.closed.components = [] ∧ condition = none ∧ shape = .literal
  · refine (if_pos (by simp [hbase])).trans (Eq.trans ?_ (if_pos hbase).symm)
    cases p.grounded.closed.base.withProperty text <;> rfl
  · refine (if_neg ?_).trans (if_neg hbase).symm
    simpa [and_assoc] using hbase

theorem Regular.appendProperty_eq_error_iff (hp : p.Regular) :
    p.appendProperty text condition = .error refused ↔
      p.RefusesProperty text condition refused := by
  constructor
  · intro h
    by_cases hcan : p.canAppendProperty text = true
    · obtain ⟨hopen, hroot, shape, hshape⟩ := canAppendProperty_iff.mp hcan
      rw [appendProperty_of_can hcan hshape] at h
      split at h
      swap
      · exact absurd h (by simp)
      next hbase =>
      obtain ⟨hnil, rfl, rfl⟩ := hbase
      have hclosed : p.grounded.closed = p.grounded := closed_of_nil hnil
      rw [hclosed] at h hnil
      rw [components_grounded] at hnil
      have hname := propertyShape?_eq_literal hshape
      split at h
      · exact absurd h (by simp)
      next error herror =>
      obtain rfl := Except.error.inj h
      obtain ⟨hprim, hhere, rfl⟩ := (Path.withProperty_eq_error_iff hname).mp herror
      have hempty : p.isEmpty = false := by
        by_contra hempty
        have hbase : p.base.isEmpty = true := by simpa [isEmpty] using hempty
        rw [Pattern.grounded, if_pos hbase] at hhere
        exact absurd hhere (by simp [Path.isHere, Path.isProperty, Path.here])
      rw [grounded_of_not_isEmpty hempty] at hprim hhere ⊢
      have hnotRoot : p.base.isRoot = false := by
        rw [Bool.eq_false_iff]
        exact fun hyes => hroot hyes hnil
      exact .ofUp hcan hname hnil rfl hempty
        ((Path.getLast?_eq_upElement_iff hempty (hp.base_isProperty hopen)).mpr
          ⟨hprim, hhere, hnotRoot⟩)
    · have hno : p.canAppendProperty text = false := by simpa using hcan
      rw [Pattern.appendProperty] at h
      split at h
      · obtain rfl := Except.error.inj h
        exact .asked hno
      · rw [if_neg hcan] at h
        obtain rfl := Except.error.inj h
        exact .asked hno
  · rintro (hno | ⟨hcan, hname, hnil, rfl, hempty, hup⟩)
    · rw [Pattern.appendProperty]
      split
      · rfl
      · rw [if_neg (by simp [hno])]
    · obtain ⟨hopen, -⟩ := canAppendProperty_iff.mp hcan
      have hclosed : p.closed = p := closed_of_not_hasTrailingStretch (by
        simp [hasTrailingStretch, hnil])
      obtain ⟨hprim, hhere, -⟩ :=
        (Path.getLast?_eq_upElement_iff hempty (hp.base_isProperty hopen)).mp hup
      have herror : p.base.withProperty text = .error ⟨p.base.text, .propertyOfNoPrim⟩ :=
        (Path.withProperty_eq_error_iff hname).mpr ⟨hprim, hhere, rfl⟩
      rw [appendProperty_of_can hcan (propertyShape?_of_isPropertyName hname),
        grounded_of_not_isEmpty hempty, hclosed, if_pos ⟨hnil, rfl, rfl⟩, herror]

/-! ## What the queries say -/

theorem canAppendChild_iff :
    p.canAppendChild text = true ↔
      p.isProperty = false ∧ ∃ shape, childShape? text = some shape := by
  simp [canAppendChild, Option.isSome_iff_exists]

/-- No reason to refuse a child is left if the query allows it, unless it is `..`. -/
theorem forall_not_refusesChild_iff (p : Pattern) (text : String)
    (condition : Option Predicate) :
    (∀ refused, ¬p.RefusesChild text condition refused) ↔
      p.canAppendChild text = true ∧
        ¬(text = upElement ∧ (p.components ≠ [] ∨ condition.isSome = true ∨
          p.base.isAbsolute = true ∧ p.base.isPrim = false)) := by
  constructor
  · intro hnone
    have hopen : p.isProperty = false := by
      by_contra hproperty
      exact hnone _ (.ended (by simpa using hproperty))
    refine ⟨canAppendChild_iff.mpr ⟨hopen, Option.ne_none_iff_exists'.mp fun hshape =>
      hnone _ (.shapeless hopen hshape)⟩, ?_⟩
    rintro ⟨hup, hbase⟩
    by_cases hlater : p.components ≠ [] ∨ condition.isSome = true
    · exact hnone _ (.upAfterBase hopen hup hlater)
    · obtain ⟨hnil, hcondition⟩ : p.components = [] ∧ condition = none := by
        simpa using hlater
      obtain ⟨habsolute, hprim⟩ : p.base.isAbsolute = true ∧ p.base.isPrim = false := by
        simpa [hnil, hcondition] using hbase
      exact hnone _ (.upFromTop hopen hup hnil hcondition habsolute hprim)
  · rintro ⟨hcan, hbase⟩ refused hrefuses
    obtain ⟨hopen, shape, hshape⟩ := canAppendChild_iff.mp hcan
    cases hrefuses with
    | ended hproperty => exact absurd hproperty (by simp [hopen])
    | shapeless _ hnone => exact absurd hshape (by simp [hnone])
    | upAfterBase _ hup hlater => exact hbase ⟨hup, or_assoc.mp (Or.inl hlater)⟩
    | upFromTop _ hup _ _ habsolute hprim =>
      exact hbase ⟨hup, Or.inr (Or.inr ⟨habsolute, hprim⟩)⟩

/-- No reason to refuse a property is left if the query allows it, unless it would go into a
base that ends in `..`. -/
theorem forall_not_refusesProperty_iff (p : Pattern) (text : String)
    (condition : Option Predicate) :
    (∀ refused, ¬p.RefusesProperty text condition refused) ↔
      p.canAppendProperty text = true ∧
        ¬(isPropertyName text.toList = true ∧ p.components = [] ∧ condition = none ∧
          p.isEmpty = false ∧ p.base.prims.getLast? = some upElement) := by
  constructor
  · intro hnone
    have hcan : p.canAppendProperty text = true := by
      by_contra hno
      exact hnone _ (.asked (by simpa using hno))
    refine ⟨hcan, ?_⟩
    rintro ⟨hname, hnil, hcondition, hempty, hup⟩
    exact hnone _ (.ofUp hcan hname hnil hcondition hempty hup)
  · rintro ⟨hcan, hbase⟩ refused hrefuses
    cases hrefuses with
    | asked hno => exact absurd hcan (by simp [hno])
    | ofUp _ hname hnil hcondition hempty hup =>
      exact hbase ⟨hname, hnil, hcondition, hempty, hup⟩

/-- The queries tell which appends succeed, except that they do not ask the base about `..`:
whether it can go up, with nothing after it, and whether it takes a property by name. -/
theorem Reachable.append_succeeds_iff (hp : p.Reachable) (text : String) :
    ((∃ q, p.appendChild text none = .ok q) ↔
        p.canAppendChild text = true ∧
          ¬(text = upElement ∧
            (p.components ≠ [] ∨ p.base.isAbsolute = true ∧ p.base.isPrim = false))) ∧
      ((∃ q, p.appendProperty text none = .ok q) ↔
        p.canAppendProperty text = true ∧
          ¬(isPropertyName text.toList = true ∧ p.components = [] ∧ p.isEmpty = false ∧
            p.base.prims.getLast? = some upElement)) := by
  have hregular := hp.regular
  have hchild := forall_not_refusesChild_iff p text none
  have hproperty := forall_not_refusesProperty_iff p text none
  simp only [← hregular.appendChild_eq_error_iff] at hchild
  simp only [← hregular.appendProperty_eq_error_iff] at hproperty
  constructor
  · rw [exists_eq_ok_iff]
    simpa using hchild
  · rw [exists_eq_ok_iff]
    simpa using hproperty

/-- On `..` a child may go up once more, and a property has to be a glob. -/
theorem append_succeeds_iff_on_up :
    let p : Pattern := ofPath ⟨.relative, [".."], none⟩
    p.Reachable ∧ (∃ q, p.appendChild ".." none = .ok q) ∧
      p.canAppendProperty "b" = true ∧ (¬∃ q, p.appendProperty "b" none = .ok q) ∧
      ∃ q, p.appendProperty "b*" none = .ok q := by
  intro p
  have hp : p.Reachable := .ofPath _
  have hname := (Reachable.append_succeeds_iff hp "b").2
  have hglob := (Reachable.append_succeeds_iff hp "b*").2
  refine ⟨hp, ?_, by decide, fun hyes => ?_, ?_⟩
  · exact (Reachable.append_succeeds_iff hp "..").1.mpr (by decide)
  · exact (hname.mp hyes).2 (by decide)
  · exact hglob.mpr (by decide)

/-- The queries allow `..` after a glob and a property of `..`, and both are refused. -/
theorem canAppend_fails_of_up :
    let p : Pattern := ⟨.here, [.glob "*" none], false⟩
    let up : Pattern := ofPath ⟨.relative, [".."], none⟩
    (p.Reachable ∧ p.canAppendChild ".." = true ∧ ¬∃ q, p.appendChild ".." none = .ok q) ∧
      up.Reachable ∧ up.canAppendProperty "b" = true ∧
        ¬∃ q, up.appendProperty "b" none = .ok q := by
  intro p up
  have hp : p.Reachable := .parse (show parse "*" = _ by decide +kernel)
  have hup : up.Reachable := .ofPath _
  have hchild : p.RefusesChild ".." none ⟨⟨p.grounded.text, .upInPattern⟩, p.grounded⟩ :=
    .upAfterBase rfl rfl (Or.inl (by decide))
  have hproperty : up.RefusesProperty "b" none ⟨⟨up.base.text, .propertyOfNoPrim⟩, up⟩ :=
    .ofUp (by decide) (by decide) rfl rfl rfl rfl
  refine ⟨⟨hp, by decide, ?_⟩, hup, by decide, ?_⟩
  · rintro ⟨q, hq⟩
    rw [hp.regular.appendChild_eq_error_iff.mpr hchild] at hq
    exact absurd hq (by simp)
  · rintro ⟨q, hq⟩
    rw [hup.regular.appendProperty_eq_error_iff.mpr hproperty] at hq
    exact absurd hq (by simp)

/-! ## What a refused append leaves behind -/

/-- A refused append leaves the pattern as it was, unless the base is empty and the child is
`..`: the pattern has become relative then. -/
theorem Reachable.pattern_of_refused (hp : p.Reachable) (text : String)
    (condition : Option Predicate) :
    (∀ refused, p.appendChild text condition = .error refused →
        refused.pattern =
          if p.isProperty = false ∧ p.isEmpty = true ∧ text = upElement then
            { p with base := .here }
          else p) ∧
      ∀ refused, p.appendProperty text condition = .error refused → refused.pattern = p := by
  constructor
  · intro refused h
    cases hp.regular.appendChild_eq_error_iff.mp h with
    | ended hproperty => simp [hproperty]
    | shapeless _ hshape =>
      have hne : text ≠ upElement := by
        rintro rfl
        exact absurd hshape (by decide)
      simp [hne]
    | upAfterBase hopen hup _ => simp [grounded, isEmpty, hopen, hup]
    | upFromTop _ _ _ _ habsolute _ =>
      simp [isEmpty, Path.isEmpty_of_isAbsolute habsolute]
  · intro refused h
    cases hp.regular.appendProperty_eq_error_iff.mp h with
    | asked _ => rfl
    | ofUp _ _ _ _ _ _ => rfl

/-- A glob whose base has been taken away: a refused `..` makes it relative, and a property
that is refused for its text does not. -/
theorem pattern_of_refused_without_base :
    let p : Pattern := ⟨.empty, [.glob "*" none], false⟩
    p.Reachable ∧
      (∃ refused, p.appendChild ".." none = .error refused ∧
        refused.pattern = ⟨.here, [.glob "*" none], false⟩) ∧
      ∃ refused, p.appendProperty "9" none = .error refused ∧ refused.pattern = p := by
  intro p
  have hparsed : Reachable ⟨.here, [.glob "*" none], false⟩ :=
    .parse (show parse "*" = _ by decide +kernel)
  have hp : p.Reachable := hparsed.setBase .empty
  have hchild := hp.regular.appendChild_eq_error_iff.mpr
    (.upAfterBase rfl rfl (Or.inl (by decide)) : p.RefusesChild ".." none _)
  have hproperty := hp.regular.appendProperty_eq_error_iff.mpr
    (.asked (by decide) : p.RefusesProperty "9" none _)
  exact ⟨hp, ⟨_, hchild, (Reachable.pattern_of_refused hp ".." none).1 _ hchild⟩,
    ⟨_, hproperty, (Reachable.pattern_of_refused hp "9" none).2 _ hproperty⟩⟩

/-- The empty pattern refuses `..` with a predicate, and is the pattern `.` afterwards. -/
theorem refused_changes_empty :
    let isPrimPath : Predicate := .call ⟨.bare, "isPrimPath", []⟩
    empty.Reachable ∧ ∃ refused, empty.appendChild ".." (some isPrimPath) = .error refused ∧
      refused.pattern = ofPath .here ∧ refused.pattern ≠ empty := by
  intro isPrimPath
  have hempty : empty.Reachable := .empty
  have hchild := hempty.regular.appendChild_eq_error_iff.mpr
    (.upAfterBase rfl rfl (Or.inr rfl) : empty.RefusesChild ".." (some isPrimPath) _)
  exact ⟨hempty, _, hchild, by decide, by decide⟩

end Pattern

end PathSets
