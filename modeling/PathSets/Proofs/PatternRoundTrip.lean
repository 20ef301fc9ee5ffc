import PathSets.Proofs.PatternBuilding
import PathSets.Proofs.Relocation

/-!
# The text of a built pattern

`Pattern.Built` are the patterns that parsing, appending, removing and giving a base lead
to, in any order and any number of times, where bases and predicates have been parsed.
All of them are `Pattern.Assembled`: the base can be written, the components can follow
one another, and only the place of the first of them may be wrong.

It is wrong for a property that stands right behind the root or behind `..`.  Appending a
property asks the base whether it takes one only if the property goes into the base, and
giving a pattern another base asks nothing at all.  So the text of a built pattern is read
as the pattern if and only if this has not happened (`parse_text_iff_takesProperty`); that
it can happen is `parse_text_fails_of_property`.
-/

namespace PathSets.Pattern

variable {p : Pattern} {base : Path} {components : List Component} {isProperty : Bool}
  {name : String} {condition : Option Predicate}

/-! ## Assembled patterns -/

theorem Growing.assembled (hp : p.Growing) : p.Assembled :=
  hp.wellFormed.assembled

theorem Assembled.grounded (hp : p.Assembled) : p.grounded.Assembled := by
  unfold Pattern.grounded
  split
  · next hempty =>
    have hanchor : p.base.anchor = .empty := by simpa [Path.isEmpty] using hempty
    have hbase : p.base.isProperty = false := by
      simp [Path.isProperty, (hp.base.empty hanchor).2]
    have hhere : ¬Path.here.isProperty = true := by decide
    exact ⟨Path.wellFormed_here, fun hyes => absurd hyes hhere, fun _ => hp.components hbase⟩
  · exact hp

/-- Without a property, an assembled pattern can be appended to. -/
theorem Assembled.growing (hp : p.Assembled) (hopen : p.isProperty = false) :
    p.grounded.Growing := by
  have hopen' : p.grounded.isProperty = false := (isProperty_grounded p).trans hopen
  have hbase : p.grounded.base.isProperty = false := by
    by_contra hproperty
    have hends := (hp.grounded.property (by simpa using hproperty)).2
    rw [hopen'] at hends
    exact absurd hends (by simp)
  refine ⟨hp.grounded.base, isEmpty_grounded p, by simpa [Path.isProperty] using hbase, hopen', ?_⟩
  have hcomponents := hp.grounded.components hbase
  rw [hopen'] at hcomponents
  exact hcomponents.setBase fun hyes => absurd hyes (by simp)

/-! ## Appending -/

theorem Assembled.appendStretch (hp : p.Assembled) : p.appendStretch.Assembled := by
  by_cases hends : (p.isProperty || p.hasTrailingStretch) = true
  · rwa [Pattern.appendStretch, if_pos hends]
  · have hsame : p.grounded.appendStretch = p.appendStretch := by
      simp [Pattern.appendStretch, hends]
    have hopen : p.isProperty = false := by
      simp only [Bool.or_eq_true, not_or, Bool.not_eq_true] at hends
      exact hends.1
    exact hsame ▸ (hp.growing hopen).appendStretch.assembled

/-- An append of a child, be it refused or not, keeps a pattern assembled. -/
theorem Assembled.appendChild (hp : p.Assembled) (hcondition : Readable condition) :
    (after (p.appendChild name condition)).Assembled := by
  cases h : p.appendChild name condition with
  | ok q =>
    obtain ⟨hopen, hground⟩ := appendChild_grounded h
    exact ((hp.growing hopen).appendChild hcondition hground).1.assembled
  | error refused =>
    show refused.pattern.Assembled
    rcases refused_appendChild h with hsame | hground
    · rwa [hsame]
    · exact hground ▸ hp.grounded

/-- A property as a component keeps a pattern assembled, whether or not the base takes
it. -/
theorem Growing.addProperty (hp : p.Growing) (hstretch : p.hasTrailingStretch = false)
    {c : Component} (hc : c.WellFormed true) (hplain : p.components = [] → c.isPlain = false) :
    Assembled { p.add c with isProperty := true } where
  base := hp.base
  property hproperty := by
    simp [Path.isProperty, hp.baseProperty] at hproperty
  components _ := by
    have hcomponents : Continues false { base := .here } p.components :=
      hp.components.setBase fun hyes => absurd hyes (by simp)
    refine hcomponents.append (.property rfl hc hplain ⟨rfl, ?_, fun _ => takesProperty_here⟩)
    rwa [hasTrailingStretch, hp.isProperty] at hstretch

theorem Assembled.appendProperty (hp : p.Assembled) (hcondition : Readable condition) :
    (after (p.appendProperty name condition)).Assembled := by
  cases h : p.appendProperty name condition with
  | ok q =>
    show q.Assembled
    obtain ⟨hopen, hground⟩ := appendProperty_grounded h
    have hgrowing := hp.growing hopen
    obtain ⟨hclosed, hstretch⟩ := hgrowing.closed
    obtain ⟨-, ⟨base, hnil, hproperty, rfl⟩ | ⟨shape, hshape, hplain, rfl⟩⟩ :=
      appendProperty_cases hgrowing.notEmpty hground
    · obtain ⟨-, -, hbase⟩ := Path.withProperty_cases hproperty
      refine ⟨hclosed.base.withProperty hproperty, fun _ => ⟨hnil, rfl⟩, fun hno => ?_⟩
      rw [hbase] at hno
      exact absurd hno (by simp [Path.isProperty])
    · have hc := wellFormed_ofShape (propertyShape?_eq_some hshape) hcondition
      exact hclosed.addProperty hstretch hc fun hnil => isPlain_ofShape (hplain hnil)
  | error refused =>
    show refused.pattern.Assembled
    rcases refused_appendProperty h with hsame | ⟨hopen, hclosed⟩
    · rwa [hsame]
    · exact hclosed ▸ (hp.growing hopen).closed.1.assembled

/-! ## Removing and moving -/

/-- Without the last of them, components still follow one another. -/
theorem Continues.dropLast (h : Continues isProperty p components) :
    Continues false p components.dropLast := by
  induction h with
  | done _ => exact .done rfl
  | @stretch p components hstretch _ ih =>
    cases components with
    | nil => exact .done rfl
    | cons c components => exact .stretch hstretch ih
  | @element p c components hc hplain _ _ ih =>
    cases components with
    | nil => exact .done rfl
    | cons d components => exact .element hc hplain nofun ih
  | property _ _ _ _ => exact .done rfl

theorem Assembled.dropLast (hp : p.Assembled) (hne : p.components ≠ []) :
    Assembled { p with components := p.components.dropLast, isProperty := false } where
  base := hp.base
  property hproperty := absurd (hp.property hproperty).1 hne
  components hbase := (hp.components hbase).dropLast

theorem Assembled.removeTrailingStretch (hp : p.Assembled) : p.removeTrailingStretch.Assembled := by
  unfold Pattern.removeTrailingStretch
  split
  · next hstretch =>
    simp only [hasTrailingStretch, Bool.and_eq_true, Bool.not_eq_true'] at hstretch
    have hne : p.components ≠ [] := by
      intro hnil
      simp [hnil] at hstretch
    have hdrop := hp.dropLast hne
    rwa [← hstretch.1] at hdrop
  · exact hp

theorem Assembled.removeTrailingComponent (hp : p.Assembled) :
    p.removeTrailingComponent.Assembled := by
  unfold Pattern.removeTrailingComponent
  split
  · exact hp
  · next hne => exact hp.dropLast (by simpa using hne)

theorem assembled_empty : empty.Assembled :=
  ⟨Path.wellFormed_empty, nofun, fun _ => .done rfl⟩

theorem assembled_stretch (hbase : base.WellFormed) (hproperty : base.isProperty = false) :
    Assembled { base, components := [.stretch] } :=
  ⟨hbase, fun hyes => absurd hyes (by simp [hproperty]), fun _ => .stretch rfl (.done rfl)⟩

/-! ## Built patterns -/

/-- A condition that some text spells, if there is one. -/
def FromText (condition : Option Predicate) : Prop :=
  ∀ predicate ∈ condition, ∃ text, Predicate.parse text = .ok predicate

theorem fromText_none : FromText none := nofun

theorem fromText_some {text : String} {predicate : Predicate}
    (h : Predicate.parse text = .ok predicate) : FromText (some predicate) := by
  intro found hfound
  obtain rfl := Option.some.inj hfound
  exact ⟨text, h⟩

theorem FromText.readable (h : FromText condition) : Readable condition := by
  intro predicate hpredicate
  obtain ⟨text, htext⟩ := h predicate hpredicate
  exact Predicate.wellFormed_of_read (mapError_eq_ok.mp htext)

/-- The patterns that can be built from paths and predicates that have been parsed.  An
append that is refused counts too, because it leaves a pattern behind. -/
inductive Built : Pattern → Prop
  | empty : Built empty
  | everything : Built everything
  | everyDescendant : Built everyDescendant
  | parse {text : String} {p : Pattern} (h : parse text = .ok p) : Built p
  | ofPath {text : String} {base : Path} (h : Path.parse text = .ok base) : Built (ofPath base)
  | setBase {p : Pattern} {text : String} {base : Path} (hp : Built p)
      (h : Path.parse text = .ok base) : Built (p.setBase base)
  | appendChild {p : Pattern} {condition : Option Predicate} (hp : Built p) (text : String)
      (h : FromText condition) : Built (after (p.appendChild text condition))
  | appendProperty {p : Pattern} {condition : Option Predicate} (hp : Built p) (text : String)
      (h : FromText condition) : Built (after (p.appendProperty text condition))
  | appendStretch {p : Pattern} (hp : Built p) : Built p.appendStretch
  | removeTrailingStretch {p : Pattern} (hp : Built p) : Built p.removeTrailingStretch
  | removeTrailingComponent {p : Pattern} (hp : Built p) : Built p.removeTrailingComponent

/-- Everything that can be built is assembled. -/
theorem Built.assembled (h : p.Built) : p.Assembled := by
  induction h with
  | empty => exact assembled_empty
  | everything => exact assembled_stretch Path.wellFormed_root rfl
  | everyDescendant => exact assembled_stretch Path.wellFormed_here rfl
  | parse h => exact (wellFormed_of_parse h).assembled
  | ofPath h => exact assembled_empty.setBase (Path.wellFormed_of_parse h)
  | setBase _ h ih => exact ih.setBase (Path.wellFormed_of_parse h)
  | appendChild _ _ h ih => exact ih.appendChild h.readable
  | appendProperty _ _ h ih => exact ih.appendProperty h.readable
  | appendStretch _ ih => exact ih.appendStretch
  | removeTrailingStretch _ ih => exact ih.removeTrailingStretch
  | removeTrailingComponent _ ih => exact ih.removeTrailingComponent

/-- The patterns that can be written and read back are the well-formed ones. -/
theorem parse_text_iff (p : Pattern) : parse p.text = .ok p ↔ p.WellFormed := by
  refine ⟨wellFormed_of_parse, fun hp => ?_⟩
  rw [parse, text, String.toList_ofList]
  exact mapError_eq_ok.mpr (read_write hp)

/-- The text of a built pattern is read as the pattern, unless the pattern is a property of
a base that cannot have one: the root, or a path that ends in `..`. -/
theorem parse_text_iff_takesProperty (hp : p.Built) (hbase : p.base.isEmpty = false) :
    parse p.text = .ok p ↔ (p.IsLoneProperty → Path.TakesProperty p.base.anchor p.base.prims) :=
  (parse_text_iff p).trans (hp.assembled.wellFormed_iff hbase)

/-- Behind another component, a property may be below `..`. -/
theorem parse_text_iff_takesProperty_of_stretch :
    let isPrimPath : Predicate := .call ⟨.bare, "isPrimPath", []⟩
    let p : Pattern := ⟨⟨.relative, [".."], none⟩,
      [.glob "a*" none, .stretch, .glob "*" none, .named "x:y" (some isPrimPath)], true⟩
    p.Built ∧ p.base.isEmpty = false ∧ p.text = "../a*//*.x:y{isPrimPath}" ∧
      parse p.text = .ok p := by
  intro isPrimPath p
  have hup : Built (ofPath ⟨.relative, [".."], none⟩) :=
    .ofPath (show Path.parse ".." = _ by decide +kernel)
  have hcondition : FromText (some isPrimPath) :=
    fromText_some (show Predicate.parse "isPrimPath" = _ by decide +kernel)
  have hchild := hup.appendChild "a*" fromText_none
  have hproperty := hchild.appendStretch.appendProperty "x:y" hcondition
  let child := after ((ofPath ⟨.relative, [".."], none⟩).appendChild "a*" none)
  have hsame : after (child.appendStretch.appendProperty "x:y" (some isPrimPath)) = p := by
    decide +kernel
  have hp : p.Built := hsame ▸ hproperty
  have hlone : ¬p.IsLoneProperty := by decide
  exact ⟨hp, rfl, by decide +kernel,
    (parse_text_iff_takesProperty hp rfl).mpr fun hyes => absurd hyes hlone⟩

/-- A property with a predicate is put on `..`, and a property of `.` is given the root as
its base.  The text of the first is no pattern, and that of the second is another one. -/
theorem parse_text_fails_of_property :
    (∃ p : Pattern, p.Built ∧ p.base.isEmpty = false ∧ p.text = "...x{isPrimPath}" ∧
        (parse p.text).isOk = false) ∧
      ∃ p : Pattern, p.Built ∧ p.base.isEmpty = false ∧ p.text = ".*" ∧
        ∃ q, parse p.text = .ok q ∧ q ≠ p := by
  let isPrimPath : Predicate := .call ⟨.bare, "isPrimPath", []⟩
  have hup : Built (ofPath ⟨.relative, [".."], none⟩) :=
    .ofPath (show Path.parse ".." = _ by decide +kernel)
  have hcondition : FromText (some isPrimPath) :=
    fromText_some (show Predicate.parse "isPrimPath" = _ by decide +kernel)
  have hhere : Built ⟨.here, [.glob "*" none], true⟩ :=
    .parse (show parse ".*" = _ by decide +kernel)
  have hroot : Path.parse "/" = .ok .root := by decide +kernel
  exact ⟨⟨_, hup.appendProperty "x" hcondition, by decide +kernel⟩,
    ⟨_, hhere.setBase hroot, by decide +kernel, by decide +kernel,
      ⟨.here, [.glob "*" none], true⟩, by decide +kernel⟩⟩

end PathSets.Pattern
