import PathSets.Proofs.PatternBuilding

/-!
# What built patterns consist of

`Pattern.Regular` says what the components of a pattern are: elements, and the property if
there is one.  A plain name never comes first, because it goes into the base, and nothing
follows a base that is a property.

Every editing operation keeps that, also where it is refused (`Regular.appendChild`,
`Regular.appendProperty`), so it holds for all patterns that can be built
(`Reachable.regular`).  `Reachable.representation` says it of the texts and predicates that
a reader of the components sees.
-/

namespace PathSets

/-! ## Components by their texts -/

namespace Component

variable {c : Component} {namespaced : Bool}

/-- The text of a component is a name or a glob, or there is only a predicate, which no
property is. -/
theorem HasShape.text (h : c.HasShape namespaced) :
    (if namespaced then isPropertyName c.nameText.toList else isIdentifier c.nameText.toList) =
        true ∨
      isGlob namespaced c.nameText.toList = true ∨ namespaced = false ∧ c.isBare = true := by
  cases c with
  | stretch => exact absurd h id
  | bare _ => exact Or.inr (Or.inr ⟨h, rfl⟩)
  | named name _ => cases namespaced <;> exact Or.inl h
  | glob shape _ => exact Or.inr (Or.inl h)

/-- A component is literal just if its text is a name. -/
theorem HasShape.isLiteral (h : c.HasShape namespaced) :
    c.isLiteral =
      if namespaced then isPropertyName c.nameText.toList else isIdentifier c.nameText.toList := by
  cases c with
  | stretch => exact absurd h id
  | bare _ =>
    obtain rfl : namespaced = false := h
    rfl
  | named name _ => cases namespaced <;> exact Eq.symm h
  | glob shape _ =>
    cases namespaced
    · exact (isIdentifier_eq_false_of_isGlob h).symm
    · exact (isPropertyName_eq_false_of_isGlob h).symm

theorem nameText_ne_upElement (h : c.isStretch = true ∨ c.HasShape namespaced) :
    c.nameText ≠ upElement := by
  rcases h with hstretch | hshape
  · obtain rfl := eq_stretch hstretch
    decide
  cases c with
  | stretch | bare => exact (by decide : "" ≠ upElement)
  | named name _ =>
    cases namespaced with
    | false => exact Path.ne_upElement_of_isIdentifier hshape
    | true =>
      rintro (rfl : name = upElement)
      exact absurd (show isPropertyName upElement.toList = true from hshape) (by decide)
  | glob shape _ => exact Pattern.ne_upElement_of_isGlob hshape

/-- A stretch has neither a text nor a predicate. -/
theorem isStretch_iff (h : c.isStretch = true ∨ c.HasShape namespaced) :
    c.isStretch = true ↔ c.nameText = "" ∧ c.condition? = none := by
  rcases h with hstretch | hshape
  · obtain rfl := eq_stretch hstretch
    decide
  refine iff_of_false (by simp [hshape.isStretch]) ?_
  rintro ⟨hname, hnone⟩
  obtain ⟨p, rfl⟩ := hshape.nameText_eq_empty hname
  exact absurd hnone (by simp [condition?])

/-- A bare predicate has only a predicate. -/
theorem isBare_iff (h : c.isStretch = true ∨ c.HasShape namespaced) :
    c.isBare = true ↔ c.nameText = "" ∧ c.condition?.isSome = true := by
  rcases h with hstretch | hshape
  · obtain rfl := eq_stretch hstretch
    decide
  refine ⟨fun hbare => ?_, ?_⟩
  · cases c with
    | bare p => exact ⟨rfl, rfl⟩
    | stretch | named | glob => exact absurd hbare (by simp [isBare])
  · rintro ⟨hname, -⟩
    obtain ⟨p, rfl⟩ := hshape.nameText_eq_empty hname
    rfl

end Component

namespace Pattern

variable {p : Pattern} {c : Component} {isProperty : Bool} {components : List Component}
  {name : String} {condition : Option Predicate}

/-! ## Regular patterns -/

/-- The components that are no property. -/
def elements (p : Pattern) : List Component :=
  if p.isProperty then p.components.dropLast else p.components

theorem elements_eq_components (hopen : p.isProperty = false) : p.elements = p.components := by
  simp [elements, hopen]

theorem mem_elements_of_dropLast (hc : c ∈ p.components.dropLast) : c ∈ p.elements := by
  unfold elements
  split
  · exact hc
  · exact (List.dropLast_sublist _).subset hc

/-- Elements come first and the property last, no plain name comes before the first
wildcard, and nothing follows a base that is a property. -/
structure Regular (p : Pattern) : Prop where
  base : p.base.isProperty = true → p.components = [] ∧ p.isProperty = true
  first : ∀ c ∈ p.components.head?, c.isPlain = false
  elements : ∀ c ∈ p.elements, c.isStretch = true ∨ c.HasShape false
  property : p.isProperty = true → ∀ c ∈ p.components.getLast?, c.HasShape true

theorem regular_of_nil (hnil : p.components = [])
    (hbase : p.base.isProperty = true → p.isProperty = true) : p.Regular where
  base h := ⟨hnil, hbase h⟩
  first c hc := absurd hc (by simp [hnil])
  elements c hc := absurd hc (by simp [Pattern.elements, hnil])
  property _ c hc := absurd hc (by simp [hnil])

theorem Regular.base_isProperty (hp : p.Regular) (hopen : p.isProperty = false) :
    p.base.isProperty = false := by
  by_contra hbase
  have hproperty := (hp.base (by simpa using hbase)).2
  simp [hopen] at hproperty

theorem Regular.withBase {base : Path} (hp : p.Regular) (hbase : base.isProperty = false) :
    Regular { p with base } where
  base h := absurd h (by simp [hbase])
  first := hp.first
  elements := hp.elements
  property := hp.property

/-- What is added at the end comes first only where there was nothing. -/
theorem Regular.first_append (hp : p.Regular) (hplain : p.components = [] → c.isPlain = false) :
    ∀ d ∈ (p.components ++ [c]).head?, d.isPlain = false := by
  intro d hd
  cases hcomponents : p.components with
  | nil =>
    obtain rfl : c = d := by simpa [hcomponents] using hd
    exact hplain hcomponents
  | cons first rest =>
    obtain rfl : first = d := by simpa [hcomponents] using hd
    exact hp.first first (by simp [hcomponents])

theorem Regular.add (hp : p.Regular) (hopen : p.isProperty = false)
    (hc : c.isStretch = true ∨ c.HasShape false)
    (hplain : p.components = [] → c.isPlain = false) : (p.add c).Regular where
  base h := absurd h (by simp [hp.base_isProperty hopen])
  first := hp.first_append hplain
  elements d hd := by
    rw [elements_eq_components (p := p.add c) hopen, add_components] at hd
    rcases List.mem_append.mp hd with hd | hd
    · exact hp.elements d (elements_eq_components hopen ▸ hd)
    · exact List.mem_singleton.mp hd ▸ hc
  property h := absurd h (by simp [hopen])

theorem Regular.addProperty (hp : p.Regular) (hopen : p.isProperty = false)
    (hc : c.HasShape true) (hplain : p.components = [] → c.isPlain = false) :
    Regular { p.add c with isProperty := true } where
  base h := absurd h (by simp [hp.base_isProperty hopen])
  first := hp.first_append hplain
  elements d hd := by
    rw [Pattern.elements, if_pos rfl, add_components, List.dropLast_concat] at hd
    exact hp.elements d (elements_eq_components hopen ▸ hd)
  property _ d hd := by
    obtain rfl : c = d := by simpa using hd
    exact hc

/-- The last component may go, and with it the property. -/
theorem Regular.dropLast (hp : p.Regular) (hne : p.components ≠ []) :
    Regular { p with components := p.components.dropLast, isProperty := false } where
  base h := absurd (hp.base h).1 hne
  first c hc := by
    rw [List.head?_dropLast] at hc
    split at hc
    · exact hp.first c hc
    · exact absurd hc (by simp)
  elements c hc := hp.elements c (mem_elements_of_dropLast hc)
  property := nofun

/-- Every component is an element or the property. -/
theorem Regular.mem_components (hp : p.Regular) (hc : c ∈ p.components) :
    ∃ namespaced, c.isStretch = true ∨ c.HasShape namespaced := by
  by_cases hproperty : p.isProperty = true
  · have hne : p.components ≠ [] := List.ne_nil_of_mem hc
    rw [← List.dropLast_append_getLast hne] at hc
    rcases List.mem_append.mp hc with hc | hc
    · exact ⟨false, hp.elements c (mem_elements_of_dropLast hc)⟩
    · have hlast : c ∈ p.components.getLast? := by
        rw [List.mem_singleton.mp hc]
        exact List.getLast?_eq_some_getLast hne
      exact ⟨true, Or.inr (hp.property hproperty c hlast)⟩
  · have hopen : p.isProperty = false := by simpa using hproperty
    exact ⟨false, hp.elements c (elements_eq_components hopen ▸ hc)⟩

/-! ## What is well formed is regular -/

theorem Continues.regular (h : Continues isProperty p components) (hp : p.Regular)
    (hopen : p.isProperty = false) :
    Regular { p with components := p.components ++ components, isProperty } := by
  -- Every component but the last is added to a pattern that stays open.
  induction h with
  | @done p hproperty =>
    have hsame : { p with components := p.components ++ [], isProperty := isProperty } = p := by
      rw [List.append_nil, hproperty, ← hopen]
    rw [hsame]
    exact hp
  | stretch _ _ ih =>
    have hadd := hp.add (c := .stretch) hopen (Or.inl rfl) fun _ => rfl
    simpa [Pattern.add] using ih hadd hopen
  | element hc hplain _ _ ih =>
    have hadd := hp.add hopen (Or.inr hc.shape) hplain
    simpa [Pattern.add] using ih hadd hopen
  | property hproperty hc hplain _ => exact hproperty ▸ hp.addProperty hopen hc.shape hplain

theorem WellFormed.regular (hp : p.WellFormed) : p.Regular := by
  by_cases hproperty : p.base.isProperty = true
  · obtain ⟨hnil, hclosed⟩ := hp.property hproperty
    exact regular_of_nil hnil fun _ => hclosed
  · have hcontinues := hp.components (by simpa using hproperty)
    exact hcontinues.regular (regular_of_nil rfl fun h => absurd h hproperty) rfl

/-! ## What keeps a pattern regular -/

theorem Regular.grounded (hp : p.Regular) : p.grounded.Regular := by
  unfold Pattern.grounded
  split
  · exact hp.withBase rfl
  · exact hp

theorem Regular.appendStretch (hp : p.Regular) : p.appendStretch.Regular := by
  unfold Pattern.appendStretch
  split
  · exact hp
  next hnot =>
  obtain ⟨hopen, -⟩ : p.isProperty = false ∧ p.hasTrailingStretch = false := by simpa using hnot
  have hopen' := (isProperty_grounded p).trans hopen
  have hadd := hp.grounded.add (c := .stretch) hopen' (Or.inl rfl) fun _ => rfl
  rwa [Pattern.add, components_grounded] at hadd

/-- Before a property, a stretch is followed by an element of any name. -/
theorem Regular.closed (hp : p.Regular) (hopen : p.isProperty = false) : p.closed.Regular := by
  unfold Pattern.closed
  split
  · have hany : isGlob false "*".toList = true := by decide
    exact hp.add hopen (Or.inr hany) fun _ => rfl
  · exact hp

theorem Regular.appendChild (hp : p.Regular) :
    (after (p.appendChild name condition)).Regular := by
  obtain h | h | h | ⟨hopen, ⟨base, hchild, h⟩ | ⟨c, hc, hplain, h⟩⟩ :=
    after_appendChild_cases p name condition
  · exact h.symm ▸ hp
  · exact h.symm ▸ hp.grounded
  · exact h.symm ▸ hp.grounded.appendStretch
  · have hbase : base.isProperty = false := by simp [Path.isProperty, (child_eq_ok hchild).2.1]
    exact h.symm ▸ hp.grounded.withBase hbase
  · rw [← components_grounded] at hplain
    exact h.symm ▸ hp.grounded.add ((isProperty_grounded p).trans hopen) (Or.inr hc) hplain

theorem Regular.appendProperty (hp : p.Regular) :
    (after (p.appendProperty name condition)).Regular := by
  obtain h | ⟨hopen, hcases⟩ := after_appendProperty_cases p name condition
  · exact h.symm ▸ hp
  have hopen' := (isProperty_grounded p).trans hopen
  have hclosed := hp.grounded.closed hopen'
  obtain h | ⟨base, hnil, h⟩ | ⟨c, hc, hplain, h⟩ := hcases
  · exact h.symm ▸ hclosed
  · exact h.symm ▸ regular_of_nil hnil fun _ => rfl
  · exact h.symm ▸ hclosed.addProperty ((isProperty_closed _).trans hopen') hc hplain

theorem Regular.removeTrailingStretch (hp : p.Regular) : p.removeTrailingStretch.Regular := by
  unfold Pattern.removeTrailingStretch
  split
  · next hstretch =>
    simp only [hasTrailingStretch, Bool.and_eq_true, Bool.not_eq_true'] at hstretch
    obtain ⟨hopen, hlast⟩ := hstretch
    have hne : p.components ≠ [] := by
      rintro hnil
      simp [hnil] at hlast
    have hdrop := hp.dropLast hne
    rwa [← hopen] at hdrop
  · exact hp

theorem Regular.removeTrailingComponent (hp : p.Regular) :
    p.removeTrailingComponent.Regular := by
  unfold Pattern.removeTrailingComponent
  split
  · exact hp
  · next hne => exact hp.dropLast (by simpa using hne)

theorem Regular.setBase (hp : p.Regular) (base : Path) : (p.setBase base).Regular := by
  unfold Pattern.setBase
  split
  · exact regular_of_nil rfl fun _ => rfl
  next hbase =>
  split
  · exact regular_of_nil rfl fun h => absurd h hbase
  · exact hp.withBase (by simpa using hbase)

theorem regular_everything : everything.Regular :=
  (regular_of_nil (p := { base := .root }) rfl nofun).appendStretch

/-- Everything that can be built is regular. -/
theorem Reachable.regular (h : p.Reachable) : p.Regular := by
  induction h with
  | empty => exact regular_of_nil rfl nofun
  | everything => exact regular_everything
  | everyDescendant => exact regular_everything.withBase rfl
  | ofPath base => exact (regular_of_nil rfl nofun : Pattern.empty.Regular).setBase base
  | parse h => exact (wellFormed_of_parse h).regular
  | appendChild _ _ _ ih => exact ih.appendChild
  | appendProperty _ _ _ ih => exact ih.appendProperty
  | appendStretch _ ih => exact ih.appendStretch
  | removeTrailingStretch _ ih => exact ih.removeTrailingStretch
  | removeTrailingComponent _ ih => exact ih.removeTrailingComponent
  | setBase _ base ih => exact ih.setBase base

/-- The representation of every pattern that can be built: no two stretches stand side by
side, the first component is no name without a predicate, and none is `..`.  Nothing follows
a base that is a property.  If there is a property among the components, it comes last, and
is a property name or a glob.  All others are stretches, prim names, globs or bare
predicates.  Literal components are just those whose text is a name, and stretches and bare
predicates are just those that have no text. -/
theorem Reachable.representation (h : p.Reachable) :
    (p.components.IsChain fun c d => ¬ (c.isStretch = true ∧ d.isStretch = true)) ∧
      (∀ c ∈ p.components.head?, ¬ (c.isLiteral = true ∧ c.condition? = none)) ∧
      (∀ c ∈ p.components, c.nameText ≠ upElement ∧
        (c.isStretch = true ↔ c.nameText = "" ∧ c.condition? = none) ∧
        (c.isBare = true ↔ c.nameText = "" ∧ c.condition?.isSome = true)) ∧
      (p.base.isProperty = true → p.components = [] ∧ p.isProperty = true) ∧
      (p.isProperty = true → ∀ c ∈ p.components.getLast?, c.isStretch = false ∧
        (isPropertyName c.nameText.toList = true ∨ isGlob true c.nameText.toList = true) ∧
        c.isLiteral = isPropertyName c.nameText.toList) ∧
      ∀ c ∈ p.elements,
        (c.isStretch = true ∨ isIdentifier c.nameText.toList = true ∨
          isGlob false c.nameText.toList = true ∨ c.isBare = true) ∧
        c.isLiteral = isIdentifier c.nameText.toList := by
  have hregular := h.regular
  refine ⟨?apart, ?first, ?texts, hregular.base, ?property, ?elements⟩
  case apart => exact h.orderly.apart.imp fun c d hcd => by simpa using hcd
  case first =>
    rintro c hc ⟨hliteral, hnone⟩
    have hplain := hregular.first c hc
    simp [Component.isPlain, hliteral, hnone] at hplain
  case texts =>
    intro c hc
    obtain ⟨namespaced, hc⟩ := hregular.mem_components hc
    exact ⟨Component.nameText_ne_upElement hc, Component.isStretch_iff hc,
      Component.isBare_iff hc⟩
  case property =>
    intro hproperty c hc
    have hshape := hregular.property hproperty c hc
    refine ⟨hshape.isStretch, ?_, hshape.isLiteral⟩
    obtain hname | hglob | ⟨hbare, -⟩ := hshape.text
    · exact Or.inl hname
    · exact Or.inr hglob
    · exact absurd hbare (by simp)
  case elements =>
    intro c hc
    obtain hstretch | hshape := hregular.elements c hc
    · obtain rfl := Component.eq_stretch hstretch
      exact ⟨Or.inl rfl, rfl⟩
    refine ⟨Or.inr ?_, hshape.isLiteral⟩
    obtain hname | hglob | ⟨-, hbare⟩ := hshape.text
    · exact Or.inl hname
    · exact Or.inr (Or.inl hglob)
    · exact Or.inr (Or.inr hbare)

/-- Two refused appends on the way to a pattern.  `..` with a predicate is refused by the empty
pattern, but makes it relative; `y` is refused while there is a property.  The property was
given an element of any name to stand on, which stays when the property is removed. -/
theorem representation_of_refused :
    let relative := after (empty.appendChild upElement (some (.call { name := "defined" })))
    let property := after (relative.appendStretch.appendProperty "x" none)
    let refused := after (property.appendChild "y" none)
    let child := after (refused.removeTrailingComponent.appendChild "y" none)
    let p := after ((child.setBase ⟨.absolute, ["a"], none⟩).appendProperty "p:*" none)
    relative = { base := .here } ∧ refused = property ∧
      p = { base := ⟨.absolute, ["a"], none⟩,
            components := [.stretch, .glob "*" none, .named "y" none, .glob "p:*" none],
            isProperty := true } ∧
      p.Reachable ∧
      (p.components.IsChain fun c d => ¬ (c.isStretch = true ∧ d.isStretch = true)) ∧
      (∀ c ∈ p.components, c.nameText ≠ upElement) ∧
      (∀ c ∈ p.components.getLast?, c.isLiteral = isPropertyName c.nameText.toList) ∧
      ∀ c ∈ p.elements, c.isLiteral = isIdentifier c.nameText.toList := by
  intro relative property refused child p
  have hrelative : relative.Reachable := Reachable.empty.appendChild _ _
  have hproperty : property.Reachable := hrelative.appendStretch.appendProperty _ _
  have hrefused : refused.Reachable := hproperty.appendChild _ _
  have hchild : child.Reachable := hrefused.removeTrailingComponent.appendChild _ _
  have hp : p.Reachable := (hchild.setBase _).appendProperty _ _
  have heq : p = { base := ⟨.absolute, ["a"], none⟩,
                   components := [.stretch, .glob "*" none, .named "y" none, .glob "p:*" none],
                   isProperty := true } := by decide +kernel
  obtain ⟨hapart, -, htexts, -, hlast, helements⟩ := Reachable.representation hp
  exact ⟨by decide +kernel, by decide +kernel, heq, hp, hapart, fun c hc => (htexts c hc).1,
    fun c hc => (hlast (congrArg Pattern.isProperty heq) c hc).2.2,
    fun c hc => (helements c hc).2⟩

end Pattern

end PathSets
