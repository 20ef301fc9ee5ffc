import PathSets.Proofs.PatternReading
import PathSets.Proofs.PredicateForm

/-!
# What reading patterns gives

A pattern that has been read is well formed (`Pattern.wellFormed_of_read`).  While it is
read it is `Growing`: well formed, and open for more.  Every append keeps that, except
that a property ends the pattern, and a trace of the reading is a row of appends
(`Growing.elements`, `Growing.leading`).

Appending can put a property behind a base that ends in `..`, where it cannot be written.
The reader never does: after leading `..` elements it asks for another element first, and
no element is `..` (`Pattern.Settled`).
-/

namespace PathSets.Pattern

variable {p q : Pattern} {c : Component} {isProperty : Bool} {components more : List Component}
  {name : String} {condition : Option Predicate}

/-! ## Growing patterns -/

/-- A predicate that can be read back. -/
def Readable (condition : Option Predicate) : Prop :=
  ∀ p ∈ condition, p.WellFormed ∧ p.depth ≤ maxDepth

theorem readable_none : Readable none := nofun

/-- A property comes as a component. -/
theorem Continues.ne_nil (h : Continues true p components) : components ≠ [] := by
  cases h with
  | done hlast => exact absurd hlast (by simp)
  | stretch _ _ => simp
  | element _ _ _ _ => simp
  | property _ _ _ _ => simp

/-- Components that continue a pattern one after the other. -/
theorem Continues.append (h : Continues false p components)
    (hmore : Continues isProperty { p with components := p.components ++ components } more) :
    Continues isProperty p (components ++ more) := by
  induction h with
  | done _ => simpa using hmore
  | stretch hp _ ih => exact .stretch hp (ih (by simpa [add] using hmore))
  | element hc hplain _ h ih =>
    refine .element hc hplain (fun hproperty => ?_) (ih (by simpa [add] using hmore))
    subst hproperty
    exact List.append_ne_nil_of_right_ne_nil _ hmore.ne_nil
  | property hproperty _ _ _ => exact absurd hproperty (by simp)

/-- A well-formed pattern that can still be appended to. -/
structure Growing (p : Pattern) : Prop where
  base : p.base.WellFormed
  notEmpty : p.base.isEmpty = false
  baseProperty : p.base.property = none
  isProperty : p.isProperty = false
  components : Continues false { base := p.base } p.components

theorem Growing.wellFormed (hp : p.Growing) : p.WellFormed where
  base := hp.base
  notEmpty := hp.notEmpty
  property hproperty := by
    rw [Path.isProperty, hp.baseProperty] at hproperty
    exact absurd hproperty (by simp)
  components _ := hp.isProperty ▸ hp.components

theorem growing_base {base : Path} (hbase : base.WellFormed) (hempty : base.isEmpty = false)
    (hproperty : base.property = none) : Growing { base } :=
  ⟨hbase, hempty, hproperty, rfl, .done rfl⟩

/-- The pattern itself is its base and its components. -/
theorem Growing.eq_base (hp : p.Growing) :
    { base := p.base, components := [] ++ p.components } = p := by
  obtain ⟨base, components, isProperty⟩ := p
  obtain rfl : isProperty = false := hp.isProperty
  rfl

theorem Growing.add (hp : p.Growing) (h : Continues false p [c]) : (p.add c).Growing where
  base := hp.base
  notEmpty := hp.notEmpty
  baseProperty := hp.baseProperty
  isProperty := hp.isProperty
  components := hp.components.append (hp.eq_base.symm ▸ h)

theorem Growing.appendStretch (hp : p.Growing) : p.appendStretch.Growing := by
  by_cases hstretch : p.hasTrailingStretch = true
  · have hsame : p.appendStretch = p := by simp [Pattern.appendStretch, hstretch]
    exact hsame.symm ▸ hp
  · have hnone : p.hasTrailingStretch = false := by simpa using hstretch
    rw [appendStretch_eq_add hp.isProperty hp.notEmpty hnone]
    exact hp.add (.stretch hnone (.done rfl))

theorem Growing.addElement (hp : p.Growing) (hc : c.WellFormed false)
    (hplain : p.components = [] → c.isPlain = false) : (p.add c).Growing :=
  hp.add (.element hc hplain (by simp) (.done rfl))

/-- A pattern whose base goes one step further, where there are no components. -/
theorem Growing.withBase {base : Path} (hp : p.Growing) (hcomponents : p.components = [])
    (hbase : base.WellFormed) (hempty : base.isEmpty = false) (hproperty : base.property = none) :
    Growing { p with base } := by
  have heq : { p with base } = ({ base } : Pattern) := by
    rw [hcomponents, hp.isProperty]
  rw [heq]
  exact growing_base hbase hempty hproperty

theorem Growing.closed (hp : p.Growing) : p.closed.Growing ∧
    p.closed.hasTrailingStretch = false := by
  by_cases hstretch : p.hasTrailingStretch = true
  · have hclosed : p.closed = p.add (.glob "*" none) := by
      simp [Pattern.closed, hstretch, Pattern.add]
    have hglob : isGlob false "*".toList = true := by decide
    have hc : (Component.glob "*" none).WellFormed false := ⟨hglob, readable_none⟩
    rw [hclosed]
    exact ⟨hp.addElement hc fun _ => rfl, hasTrailingStretch_add hp.isProperty _⟩
  · have hnone : p.hasTrailingStretch = false := by simpa using hstretch
    rw [closed_of_not_hasTrailingStretch hnone]
    exact ⟨hp, hnone⟩

/-! ## Appends -/

theorem childShape?_eq_some {shape : Shape} (h : childShape? name = some shape)
    (hempty : name.isEmpty = false) (hup : name ≠ upElement) :
    (Component.ofShape shape name condition).HasShape false := by
  rw [childShape?, hempty, Bool.false_or] at h
  split at h
  · next hname =>
    obtain rfl := Option.some.inj h
    have hname' : isIdentifier name.toList = true := by simpa [hup] using hname
    exact hname'
  · split at h
    · next hglob =>
      obtain rfl := Option.some.inj h
      exact hglob
    · exact absurd h (by simp)

theorem propertyShape?_eq_some {shape : Shape} (h : propertyShape? name = some shape) :
    (Component.ofShape shape name condition).HasShape true := by
  rw [propertyShape?] at h
  split at h
  · next hname =>
    obtain rfl := Option.some.inj h
    exact hname
  · split at h
    · next hglob =>
      obtain rfl := Option.some.inj h
      exact hglob
    · exact absurd h (by simp)

theorem wellFormed_ofShape {shape : Shape} {namespaced : Bool}
    (hshape : (Component.ofShape shape name condition).HasShape namespaced)
    (hcondition : Readable condition) :
    (Component.ofShape shape name condition).WellFormed namespaced where
  shape := hshape
  condition := by cases shape <;> exact hcondition

theorem isPlain_ofShape {shape : Shape} (h : shape = .glob ∨ condition.isSome = true) :
    (Component.ofShape shape name condition).isPlain = false := by
  cases shape with
  | glob => rfl
  | literal =>
    cases condition with
    | none => simp at h
    | some p => rfl

/-- A child is neither empty nor a property. -/
theorem child_eq_ok {base next : Path} (h : base.child name = .ok next) :
    next.isEmpty = false ∧ next.property = none ∧
      (name ≠ upElement → next.prims = base.prims ++ [name]) := by
  obtain ⟨hempty, hproperty, ⟨hup, -, rfl⟩ | ⟨hup, -, -, rfl⟩ | ⟨-, rfl⟩⟩ := Path.child_cases h
  · exact ⟨hempty, hproperty, absurd hup⟩
  · exact ⟨hempty, hproperty, absurd hup⟩
  · exact ⟨hempty, hproperty, fun _ => rfl⟩

/-- Whether a property may be written after the pattern. -/
def Settled (p : Pattern) : Prop :=
  p.components = [] → Path.TakesProperty p.base.anchor p.base.prims ∨ p.base.isRoot = true

theorem settled_add (p : Pattern) (c : Component) : (p.add c).Settled := by
  intro hnil
  exact absurd hnil (by simp)

/-- What an append of a child does to a pattern that has a base: it adds a stretch, goes
down in the base, adds a bare predicate, or adds a name or a glob. -/
theorem appendChild_cases (hproperty : p.isProperty = false) (hbase : p.base.isEmpty = false)
    (h : p.appendChild name condition = .ok q) :
    (name.isEmpty = true ∧ condition = none ∧ q = p.appendStretch) ∨
      (∃ base, p.components = [] ∧ condition = none ∧ p.base.child name = .ok base ∧
        q = { p with base }) ∨
      (∃ predicate, condition = some predicate ∧ q = p.add (.bare predicate)) ∨
      ∃ shape, childShape? name = some shape ∧ name.isEmpty = false ∧ name ≠ upElement ∧
        (p.components = [] → shape = .glob ∨ condition.isSome = true) ∧
        q = p.add (.ofShape shape name condition) := by
  rw [appendChild, if_neg (by simp [hproperty]), grounded_of_not_isEmpty hbase] at h
  split at h
  · exact absurd h (by simp)
  next shape hshape =>
  dsimp only at h
  split at h
  · split at h
    · next hempty => exact Or.inl ⟨hempty, rfl, (Except.ok.inj h).symm⟩
    next hempty =>
    split at h
    · next hliteral =>
      rw [Bool.and_eq_true, List.isEmpty_iff] at hliteral
      split at h
      · next base hchild =>
        exact Or.inr (Or.inl ⟨base, hliteral.1, rfl, hchild, (Except.ok.inj h).symm⟩)
      · exact absurd h (by simp)
    next hliteral =>
    split at h
    · exact absurd h (by simp)
    next hup =>
    have hplain : p.components = [] → shape = .glob ∨ (none : Option Predicate).isSome = true := by
      intro hnil
      cases shape with
      | literal => simp [hnil] at hliteral
      | glob => exact Or.inl rfl
    exact Or.inr (Or.inr (Or.inr ⟨shape, hshape, by simpa using hempty, by simpa using hup, hplain,
      (Except.ok.inj h).symm⟩))
  · next predicate =>
    split at h
    · exact Or.inr (Or.inr (Or.inl ⟨predicate, rfl, (Except.ok.inj h).symm⟩))
    next hempty =>
    split at h
    · exact absurd h (by simp)
    next hup =>
    exact Or.inr (Or.inr (Or.inr ⟨shape, hshape, by simpa using hempty, by simpa using hup,
      fun _ => Or.inr rfl, (Except.ok.inj h).symm⟩))

/-- A child keeps the pattern growing, and settles it unless it is `..` or a stretch. -/
theorem Growing.appendChild (hp : p.Growing) (hcondition : Readable condition)
    (h : p.appendChild name condition = .ok q) :
    q.Growing ∧ (name ≠ upElement → (name.isEmpty = false ∨ condition.isSome = true) →
      q.Settled) := by
  obtain ⟨hempty, rfl, rfl⟩ | ⟨base, hnil, rfl, hchild, rfl⟩ | ⟨predicate, rfl, rfl⟩ |
    ⟨shape, hshape, hempty, hup, hplain, rfl⟩ := appendChild_cases hp.isProperty hp.notEmpty h
  · exact ⟨hp.appendStretch, by simp [hempty]⟩
  · obtain ⟨hnext, hproperty, hprims⟩ := child_eq_ok hchild
    refine ⟨hp.withBase hnil (hp.base.child hchild) hnext hproperty, fun hup _ _ => ?_⟩
    refine Or.inl (Or.inl ?_)
    rw [hprims hup]
    simpa using hup
  · exact ⟨hp.addElement ⟨rfl, hcondition⟩ fun _ => rfl, fun _ _ => settled_add p _⟩
  · have hc := wellFormed_ofShape (childShape?_eq_some hshape hempty hup) hcondition
    exact ⟨hp.addElement hc fun hnil => isPlain_ofShape (hplain hnil), fun _ _ => settled_add p _⟩

/-- What an append of a property does to a pattern that has a base: it gives the property
to the base, or adds a name or a glob. -/
theorem appendProperty_cases (hbase : p.base.isEmpty = false)
    (h : p.appendProperty name condition = .ok q) :
    p.canAppendProperty name = true ∧
      ((∃ base, p.closed.components = [] ∧ p.closed.base.withProperty name = .ok base ∧
          q = { p.closed with base, isProperty := true }) ∨
        ∃ shape, propertyShape? name = some shape ∧
          (p.closed.components = [] → shape = .glob ∨ condition.isSome = true) ∧
          q = { p.closed.add (.ofShape shape name condition) with isProperty := true }) := by
  rw [appendProperty, grounded_of_not_isEmpty hbase] at h
  split at h
  · exact absurd h (by simp)
  next shape hshape =>
  split at h
  swap
  · exact absurd h (by simp)
  next hcan =>
  refine ⟨hcan, ?_⟩
  dsimp only at h
  split at h
  · next hliteral =>
    rw [Bool.and_eq_true, Bool.and_eq_true, List.isEmpty_iff] at hliteral
    split at h
    · next base hproperty =>
      exact Or.inl ⟨base, hliteral.1.1, hproperty, (Except.ok.inj h).symm⟩
    · exact absurd h (by simp)
  · next hliteral =>
    have hplain : p.closed.components = [] → shape = .glob ∨ condition.isSome = true := by
      intro hnil
      cases shape with
      | glob => exact Or.inl rfl
      | literal =>
        cases condition with
        | none => simp [hnil] at hliteral
        | some predicate => exact Or.inr rfl
    exact Or.inr ⟨shape, hshape, hplain, (Except.ok.inj h).symm⟩

/-- A pattern without components has no stretch to follow. -/
theorem closed_of_nil (hnil : p.closed.components = []) : p.closed = p := by
  rw [Pattern.closed] at hnil ⊢
  split at hnil
  · exact absurd hnil (by simp)
  · next hnone => rw [if_neg hnone]

/-- What a settled pattern that may have a property takes it on. -/
theorem Growing.takesProperty_closed (hp : p.Growing) (hsettled : p.Settled)
    (hcan : p.canAppendProperty name = true) : p.closed.TakesProperty where
  isProperty := hp.closed.1.isProperty
  stretch := hp.closed.2
  base := by
    intro hnil
    have hsame : p.closed = p := closed_of_nil hnil
    rw [hsame] at hnil ⊢
    refine (hsettled hnil).resolve_right fun hroot => ?_
    simp [canAppendProperty, hroot, hnil] at hcan

/-- A property ends a pattern that is settled. -/
theorem Growing.appendProperty (hp : p.Growing) (hsettled : p.Settled)
    (hcondition : Readable condition) (h : p.appendProperty name condition = .ok q) :
    q.WellFormed := by
  obtain ⟨hclosed, -⟩ := hp.closed
  obtain ⟨hcan, ⟨base, hnil, hproperty, rfl⟩ | ⟨shape, hshape, hplain, rfl⟩⟩ :=
    appendProperty_cases hp.notEmpty h
  · obtain ⟨-, -, hbase⟩ := Path.withProperty_cases hproperty
    refine ⟨hclosed.base.withProperty hproperty, ?_, fun _ => ⟨hnil, rfl⟩, fun hno => ?_⟩
    · rw [hbase]
      exact hclosed.notEmpty
    · rw [hbase] at hno
      exact absurd hno (by simp [Path.isProperty])
  · have hc := wellFormed_ofShape (propertyShape?_eq_some hshape) hcondition
    have hadd : Continues true p.closed [Component.ofShape shape name condition] :=
      .property rfl hc (fun hnil => isPlain_ofShape (hplain hnil))
        (hp.takesProperty_closed hsettled hcan)
    refine ⟨hclosed.base, hclosed.notEmpty, fun hproperty => ?_, fun _ => ?_⟩
    · simp [Path.isProperty, hclosed.baseProperty] at hproperty
    · exact hclosed.components.append (hclosed.eq_base.symm ▸ hadd)

/-! ## Elements -/

variable {text element rest after : List Char} {afterSlash first : Bool}

/-- What an element separates into: a readable predicate, and a name or glob that the
element begins with. -/
theorem splitPredicate_eq_ok (h : splitPredicate element after = .ok (name, condition)) :
    Readable condition ∧ (element.head? ≠ some '.' → name ≠ upElement) ∧
      (element ≠ [] → name.isEmpty = false ∨ condition.isSome = true) := by
  obtain ⟨rfl, rfl⟩ | ⟨body, predicate, rfl, hread, rfl⟩ := splitPredicate_cases h
  · refine ⟨readable_none, ?_, fun hne => Or.inl (isEmpty_eq_false hne)⟩
    rintro hhead rfl
    exact hhead rfl
  · refine ⟨fun p hp => ?_, ?_, fun _ => Or.inr rfl⟩
    · obtain rfl := Option.some.inj hp
      exact Predicate.wellFormed_of_read hread
    · rintro hhead rfl
      exact hhead rfl

/-- Reading a property ends a settled pattern. -/
theorem Growing.readProperty (hp : p.Growing) (hsettled : p.Settled)
    (h : readProperty p text = .ok q) : q.WellFormed := by
  obtain ⟨name, condition, hsplit, -, happend⟩ := readProperty_cases h
  exact hp.appendProperty hsettled (splitPredicate_eq_ok hsplit).1 happend

/-- An element keeps a pattern growing and settles it. -/
theorem Growing.adds (hp : p.Growing) (hsettled : afterSlash = false → p.Settled)
    (h : Adds p afterSlash element rest q) : q.Growing ∧ q.Settled := by
  cases h with
  | empty hslash => exact ⟨hp, hsettled hslash⟩
  | parts hne hdot hsplit happend =>
    obtain ⟨hreadable, hup, hsome⟩ := splitPredicate_eq_ok hsplit
    obtain ⟨hq, hqSettled⟩ := hp.appendChild hreadable happend
    exact ⟨hq, hqSettled (hup hdot) (hsome hne)⟩

theorem Growing.settled_appendStretch (hp : p.Growing) : p.appendStretch.Settled := by
  by_cases hstretch : p.hasTrailingStretch = true
  · have hsame : p.appendStretch = p := by simp [Pattern.appendStretch, hstretch]
    rw [hsame]
    intro hnil
    simp [hasTrailingStretch, hnil] at hstretch
  · have hnone : p.hasTrailingStretch = false := by simpa using hstretch
    rw [appendStretch_eq_add hp.isProperty hp.notEmpty hnone]
    exact settled_add p _

/-- Reading elements gives a well-formed pattern. -/
theorem Growing.elements (hp : p.Growing) (hsettled : afterSlash = false → p.Settled)
    (h : ElementTrace p afterSlash text q) : q.WellFormed := by
  induction h with
  | done => exact hp.wellFormed
  | last h => exact (hp.adds hsettled h).1.wellFormed
  | property h hproperty =>
    obtain ⟨hnext, hnextSettled⟩ := hp.adds hsettled h
    exact hnext.readProperty hnextSettled hproperty
  | stretch h _ ih =>
    have hnext := (hp.adds hsettled h).1
    exact ih hnext.appendStretch fun _ => hnext.settled_appendStretch
  | slash h _ _ ih => exact ih (hp.adds hsettled h).1 (by simp)

/-! ## Whole patterns -/

/-- A leading element keeps a pattern growing. -/
theorem Growing.leadTo (hp : p.Growing) (h : LeadTo p first text q) : q.Growing := by
  cases h with
  | here hfirst => exact hp
  | up happend => exact (hp.appendChild readable_none happend).1

/-- Reading leading elements, and the others after them, gives a well-formed pattern. -/
theorem Growing.leading (hp : p.Growing) (hfirst : first = true → p.Settled)
    (h : LeadingTrace p first text q) : q.WellFormed := by
  induction h with
  | done => exact hp.wellFormed
  | elements h => exact hp.elements (fun hslash => hfirst (by simpa using hslash)) h
  | last h => exact (hp.leadTo h).wellFormed
  | stretch h hmore =>
    have hnext := hp.leadTo h
    exact hnext.appendStretch.elements (fun _ => hnext.settled_appendStretch) hmore
  | slash h _ ih => exact ih (hp.leadTo h) (by simp)

/-- A pattern that has been read is well formed. -/
theorem wellFormed_of_read (h : read text = .ok q) : q.WellFormed := by
  have hroot : Growing { base := .root } := growing_base Path.wellFormed_root rfl rfl
  have hhere : Growing { base := .here } := growing_base Path.wellFormed_here rfl rfl
  have hstart : Settled { base := .here } := fun _ => Or.inl (Or.inr ⟨rfl, rfl⟩)
  obtain ⟨more, -, hmore⟩ | ⟨more, -, hmore⟩ | ⟨-, hmore⟩ := read_cases h
  · exact hroot.appendStretch.elements (fun _ => hroot.settled_appendStretch) hmore
  · exact hroot.elements (fun _ _ => Or.inr rfl) hmore
  · exact hhere.leading (fun _ => hstart) hmore

theorem wellFormed_of_parse {text : String} (h : parse text = .ok q) : q.WellFormed :=
  wellFormed_of_read (mapError_eq_ok.mp h)

end PathSets.Pattern
