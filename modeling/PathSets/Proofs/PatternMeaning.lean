import PathSets.Proofs.Constancy
import PathSets.Proofs.Outcome
import PathSets.Proofs.RegexMeaning

/-!
# What patterns match

`Pattern.Matches` says which paths a pattern matches, without an automaton: the
base leads to the path, and the components consume the elements that follow it.
`Consumes` is the relation between components and elements.  It tries every way to
divide the elements among the stretches.

The automaton is related to it in three steps.

* `Automaton.Finishes` is the same relation for the steps of an automaton, which
  moves by one element at a time.  `finishes_iff_consumes` goes through the
  translation of components into steps.
* A live state has a set of positions.  `Automaton.CanFinish` says that some
  position in it can consume what follows.  It is kept by a free step
  (`canFinish_close`) and by an element (`canFinish_take`), provided that the
  positions are `Closed` under free steps, which they always are.
* `matched_advanceAll_live` runs this along the elements after the base, and
  `matched_iff_matches` adds the elements that lead to the base.
-/

namespace PathSets

/-! ## Patterns and elements -/

/-- Whether a predicate is true of a path.  A call of a function that the library does not have
is not. -/
def Predicate.Holds (library : Library) (p : Path) : Predicate → Prop
  | call c => ∃ test, library.find? c.name = some test ∧ test p c.args = true
  | not operand => ¬operand.Holds library p
  | binary .or left right => left.Holds library p ∨ right.Holds library p
  | binary _ left right => left.Holds library p ∧ right.Holds library p

namespace Component

/-- Whether an element is of the kind that a name or glob asks for: a property if it
ends a property pattern, and otherwise a prim. -/
def IsKind (endsProperty : Bool) (p : Path) : Prop :=
  if endsProperty then p.isProperty = true else p.isPrim = true

/-- Whether an optional predicate holds of a path. -/
def Allows (library : Library) (condition : Option Predicate) (p : Path) : Prop :=
  ∀ predicate ∈ condition, predicate.Holds library p

/-- Whether a component consumes an element by itself.  The element is given as the
path that ends in it.  A stretch consumes elements in another way. -/
def Takes (library : Library) (endsProperty : Bool) (p : Path) : Component → Prop
  | stretch => False
  | bare condition => condition.Holds library p
  | named name condition =>
    IsKind endsProperty p ∧ p.name = name ∧ Allows library condition p
  | glob shape condition =>
    IsKind endsProperty p ∧ Glob.Fits library shape p.name ∧ Allows library condition p

end Component

/-- Whether components consume elements exactly, from left to right.  `last` is the
last element before them, and `afterStretch` tells whether a stretch came directly
before. -/
inductive Consumes (library : Library) (isProperty : Bool) :
    (afterStretch : Bool) → (last : Option Path) → List Component → List Path → Prop where
  | done {afterStretch last} : Consumes library isProperty afterStretch last [] []
  /-- A stretch consumes any number of elements. -/
  | stretch {afterStretch last components} (taken : List Path) {elements}
      (rest : Consumes library isProperty true (taken.getLast?.or last) components elements) :
      Consumes library isProperty afterStretch last (.stretch :: components) (taken ++ elements)
  /-- Any other component consumes one element. -/
  | element {afterStretch last c components p elements}
      (htakes : c.Takes library (isProperty && components.isEmpty) p)
      (rest : Consumes library isProperty false (some p) components elements) :
      Consumes library isProperty afterStretch last (c :: components) (p :: elements)
  /-- A bare predicate directly after a stretch consumes none if it holds of the last
  element. -/
  | nothing {last condition components elements}
      (hholds : condition.Holds library last)
      (rest : Consumes library isProperty false (some last) components elements) :
      Consumes library isProperty true (some last) (.bare condition :: components) elements

/-- Whether a pattern matches an absolute path. -/
def Pattern.Matches (library : Library) (q : Pattern) (p : Path) : Prop :=
  q.base.isAbsolute = true ∧ p.isWithin q.base = true ∧
    Consumes library q.isProperty false q.base.lineage.getLast? q.components
      (p.lineage.drop q.base.elementCount)

/-! ## Steps and elements -/

namespace Automaton

/-- Whether the steps of an automaton can go along some elements to the end.  `last`
is the last element before them. -/
inductive Finishes (trailing : Bool) : (last : Option Path) → List Step → List Path → Prop where
  | done {last} : Finishes trailing last [] []
  /-- The trailing stretch consumes an element. -/
  | trail {last p elements} (h : trailing = true)
      (rest : Finishes trailing (some p) [] elements) :
      Finishes trailing last [] (p :: elements)
  /-- The stretch before a step consumes an element. -/
  | stay {last s steps p elements} (h : s.afterStretch = true)
      (rest : Finishes trailing (some p) (s :: steps) elements) :
      Finishes trailing last (s :: steps) (p :: elements)
  | take {last s steps p elements} (h : s.accepts p = true)
      (rest : Finishes trailing (some p) steps elements) :
      Finishes trailing last (s :: steps) (p :: elements)
  | free {last s steps elements} (h : s.isFree last = true)
      (rest : Finishes trailing (some last) steps elements) :
      Finishes trailing (some last) (s :: steps) elements

end Automaton

namespace Consumes

variable {library : Library} {isProperty b : Bool} {last : Option Path} {c : Component}
  {components : List Component} {elements : List Path} {p : Path}

theorem getLast?_cons_or (p : Path) (taken : List Path) (last : Option Path) :
    (p :: taken).getLast?.or last = taken.getLast?.or (some p) := by
  rw [List.getLast?_cons]
  cases taken.getLast? <;> rfl

/-- A stretch at the front stops, or consumes one more element. -/
theorem stretch_iff :
    Consumes library isProperty b last (.stretch :: components) elements ↔
      Consumes library isProperty true last components elements ∨
        ∃ p rest, elements = p :: rest ∧
          Consumes library isProperty false (some p) (.stretch :: components) rest := by
  constructor
  · intro h
    cases h with
    | stretch taken rest =>
      cases taken with
      | nil => exact Or.inl rest
      | cons p taken =>
        rw [getLast?_cons_or] at rest
        exact Or.inr ⟨p, _, rfl, .stretch taken rest⟩
    | element htakes _ => exact htakes.elim
  · rintro (h | ⟨p, rest, rfl, h⟩)
    · exact .stretch [] h
    · cases h with
      | stretch taken hrest =>
        refine .stretch (p :: taken) ?_
        rw [getLast?_cons_or]
        exact hrest
      | element htakes _ => exact htakes.elim

/-- Two stretches are one. -/
theorem stretch_stretch_iff :
    Consumes library isProperty b last (.stretch :: .stretch :: components) elements ↔
      Consumes library isProperty b last (.stretch :: components) elements := by
  induction elements generalizing b last with
  | nil =>
    rw [stretch_iff, stretch_iff, stretch_iff]
    simp
  | cons p elements ih =>
    constructor
    · intro h
      rcases stretch_iff.mp h with h | ⟨q, rest, heq, h⟩
      · exact stretch_iff.mpr (stretch_iff.mp h)
      · obtain ⟨rfl, rfl⟩ := List.cons.inj heq
        exact stretch_iff.mpr (Or.inr ⟨_, _, rfl, ih.mp h⟩)
    · intro h
      exact stretch_iff.mpr (Or.inl (stretch_iff.mpr (stretch_iff.mp h)))

/-- A component that is no stretch consumes one element, or none where it may. -/
theorem cons_iff (hc : c.isStretch = false) :
    Consumes library isProperty b last (c :: components) elements ↔
      (∃ p rest, elements = p :: rest ∧
        c.Takes library (isProperty && components.isEmpty) p ∧
        Consumes library isProperty false (some p) components rest) ∨
      b = true ∧ ∃ q, last = some q ∧ c.isBare = true ∧
        c.Takes library (isProperty && components.isEmpty) q ∧
        Consumes library isProperty false (some q) components elements := by
  constructor
  · intro h
    cases h with
    | stretch => exact absurd hc (by simp [Component.isStretch])
    | element htakes rest => exact Or.inl ⟨_, _, rfl, htakes, rest⟩
    | nothing hholds rest => exact Or.inr ⟨rfl, _, rfl, rfl, hholds, rest⟩
  · rintro (⟨p, rest, rfl, htakes, hrest⟩ | ⟨rfl, q, rfl, hbare, htakes, hrest⟩)
    · exact .element htakes hrest
    · cases c with
      | bare condition => exact .nothing htakes hrest
      | stretch | named | glob => exact absurd hbare (by simp [Component.isBare])

end Consumes

/-! ## Components as steps -/

/-- A linked predicate is true of the paths that the predicate is true of. -/
theorem Predicate.evaluate_of_link {library : Library} {predicate : Predicate}
    {linked : LinkedPredicate} (h : predicate.link library = .ok linked) (p : Path) :
    linked.evaluate p = true ↔ predicate.Holds library p := by
  induction predicate generalizing linked with
  | call c =>
    rw [link] at h
    split at h
    · next test htest =>
      rw [← Except.ok.inj h, Holds, htest]
      simp only [LinkedPredicate.evaluate, Option.some.injEq, exists_eq_left']
    · exact absurd h (by simp)
  | not operand ih =>
    obtain ⟨inner, hinner, h⟩ := bind_eq_ok.mp h
    rw [← Except.ok.inj h, Holds, ← ih hinner]
    simp only [LinkedPredicate.evaluate, Bool.not_eq_true', Bool.not_eq_true]
  | binary op left right ihLeft ihRight =>
    obtain ⟨first, hfirst, h⟩ := bind_eq_ok.mp h
    obtain ⟨second, hsecond, h⟩ := bind_eq_ok.mp h
    rw [← Except.ok.inj h]
    cases op with
    | or =>
      simp only [Connective.link, LinkedPredicate.evaluate, Bool.or_eq_true, Holds,
        ihLeft hfirst, ihRight hsecond]
    | juxtaposition | and =>
      simp only [Connective.link, LinkedPredicate.evaluate, Bool.and_eq_true, Holds,
        ihLeft hfirst, ihRight hsecond]

namespace Step

variable {library : Library} {afterStretch endsProperty : Bool} {c : Component} {s : Step}
  {p : Path}

theorem all_of_linkCondition {condition : Option Predicate} {linked : Option LinkedPredicate}
    (h : linkCondition library condition = .ok linked) (p : Path) :
    linked.all (·.evaluate p) = true ↔ Component.Allows library condition p := by
  cases condition with
  | none =>
    rw [← Except.ok.inj h]
    simp [Component.Allows]
  | some predicate =>
    obtain ⟨inner, hinner, h⟩ := bind_eq_ok.mp h
    rw [← Except.ok.inj h]
    simpa [Component.Allows] using predicate.evaluate_of_link (mapError_eq_ok.mp hinner) p

theorem kind_accepts (p : Path) :
    (if endsProperty then KindTest.property else KindTest.prim).accepts p = true ↔
      Component.IsKind endsProperty p := by
  cases endsProperty <;> rfl

/-- The step for a component accepts an element if the component takes it. -/
theorem accepts_ofComponent (hc : c.isStretch = false)
    (h : ofComponent library afterStretch endsProperty c = .ok s) :
    s.accepts p = true ↔ c.Takes library endsProperty p := by
  obtain ⟨name, hname, h⟩ := bind_eq_ok.mp h
  obtain ⟨condition, hcondition, h⟩ := bind_eq_ok.mp h
  rw [← Except.ok.inj h]
  have hallows := all_of_linkCondition hcondition p
  cases c with
  | stretch => exact absurd hc (by simp [Component.isStretch])
  | bare predicate =>
    rw [← Except.ok.inj hname]
    simpa [accepts, allows, Component.isBare, KindTest.accepts, NameTest.accepts, Component.Takes,
      Component.Allows, Component.condition?] using hallows
  | named text predicate =>
    rw [← Except.ok.inj hname]
    simp only [accepts, allows, Component.isBare, Bool.false_eq_true, if_false, Bool.and_eq_true,
      kind_accepts, NameTest.accepts, beq_iff_eq, hallows, Component.Takes, and_assoc,
      Component.condition?]
  | glob shape predicate =>
    simp only [nameTest] at hname
    split at hname
    · next matcher hmatcher =>
      rw [← Except.ok.inj hname]
      simp only [accepts, allows, Component.isBare, Bool.false_eq_true, if_false, Bool.and_eq_true,
        kind_accepts, NameTest.accepts, hallows, Component.Takes, and_assoc,
        Component.condition?, Glob.fits_iff_of_compile hmatcher]
    · exact absurd hname (by simp)

theorem afterStretch_ofComponent
    (h : ofComponent library afterStretch endsProperty c = .ok s) :
    s.afterStretch = afterStretch := by
  obtain ⟨name, _, h⟩ := bind_eq_ok.mp h
  obtain ⟨condition, _, h⟩ := bind_eq_ok.mp h
  rw [← Except.ok.inj h]

theorem isAny_ofComponent (hc : c.isStretch = false)
    (h : ofComponent library afterStretch endsProperty c = .ok s) :
    s.name.isAny = c.isBare := by
  obtain ⟨name, hname, h⟩ := bind_eq_ok.mp h
  obtain ⟨condition, _, h⟩ := bind_eq_ok.mp h
  rw [← Except.ok.inj h]
  cases c with
  | stretch => exact absurd hc (by simp [Component.isStretch])
  | bare predicate => rw [← Except.ok.inj hname]; rfl
  | named text predicate => rw [← Except.ok.inj hname]; rfl
  | glob shape predicate =>
    simp only [nameTest] at hname
    split at hname
    · rw [← Except.ok.inj hname]; rfl
    · exact absurd hname (by simp)

/-- The step for a component is free if the component is a bare predicate directly
after a stretch. -/
theorem isFree_ofComponent (hc : c.isStretch = false)
    (h : ofComponent library afterStretch endsProperty c = .ok s) :
    s.isFree p = true ↔
      afterStretch = true ∧ c.isBare = true ∧ c.Takes library endsProperty p := by
  rw [isFree, Bool.and_eq_true, Bool.and_eq_true, accepts_ofComponent hc h,
    isAny_ofComponent hc h, afterStretch_ofComponent h, and_assoc]

end Step

namespace Automaton

variable {library : Library} {isProperty b trailing : Bool} {last : Option Path} {c : Component}
  {components : List Component} {steps : List Step} {s : Step} {elements : List Path} {p : Path}

theorem stepsOf_cons (hc : c.isStretch = false) :
    stepsOf library isProperty b (c :: components) = do
      let step ← Step.ofComponent library b (isProperty && components.isEmpty) c
      let (steps, trailing) ← stepsOf library isProperty false components
      return (step :: steps, trailing) := by
  cases c with
  | stretch => exact absurd hc (by simp [Component.isStretch])
  | bare | named | glob => rfl

/-- The first step stays, takes an element, or is free. -/
theorem finishes_cons_iff (elements : List Path) :
    Finishes trailing last (s :: steps) elements ↔
      (s.afterStretch = true ∧ ∃ p rest, elements = p :: rest ∧
        Finishes trailing (some p) (s :: steps) rest) ∨
      (∃ p rest, elements = p :: rest ∧ s.accepts p = true ∧
        Finishes trailing (some p) steps rest) ∨
      ∃ q, last = some q ∧ s.isFree q = true ∧ Finishes trailing (some q) steps elements := by
  constructor
  · intro h
    cases h with
    | stay h rest => exact Or.inl ⟨h, _, _, rfl, rest⟩
    | take h rest => exact Or.inr (Or.inl ⟨_, _, rfl, h, rest⟩)
    | free h rest => exact Or.inr (Or.inr ⟨_, rfl, h, rest⟩)
  · rintro (⟨h, p, rest, rfl, hrest⟩ | ⟨p, rest, rfl, h, hrest⟩ | ⟨q, rfl, h, hrest⟩)
    · exact .stay h hrest
    · exact .take h hrest
    · exact .free h hrest

/-- A trailing stretch consumes what is left. -/
theorem finishes_nil_iff :
    Finishes trailing last [] elements ↔ trailing = true ∨ elements = [] := by
  constructor
  · intro h
    cases h with
    | done => exact Or.inr rfl
    | trail h _ => exact Or.inl h
  · rintro (h | rfl)
    · induction elements generalizing last with
      | nil => exact .done
      | cons p elements ih => exact .trail h ih
    · exact .done

theorem consumes_nil_iff {afterStretch : Bool} :
    Consumes library isProperty afterStretch last [] elements ↔ elements = [] := by
  constructor
  · intro h
    cases h
    rfl
  · rintro rfl
    exact .done

/-- One more step goes along what one more component consumes. -/
theorem finishes_cons_iff_consumes (hc : c.isStretch = false)
    (hs : Step.ofComponent library b (isProperty && components.isEmpty) c = .ok s)
    (hsteps : ∀ last elements, Finishes trailing last steps elements ↔
      Consumes library isProperty false last components elements) :
    Finishes trailing last (s :: steps) elements ↔
      Consumes library isProperty false last
        (if b then .stretch :: c :: components else c :: components) elements := by
  have hstretch := Step.afterStretch_ofComponent hs
  have haccepts := fun p => Step.accepts_ofComponent (p := p) hc hs
  have hfree := fun p => Step.isFree_ofComponent (p := p) hc hs
  cases b with
  | false =>
    rw [finishes_cons_iff, if_neg (by simp), Consumes.cons_iff hc]
    simp [hstretch, haccepts, hfree, hsteps]
  | true =>
    -- The stretch before the step consumes one element after the other.
    induction elements generalizing last with
    | nil =>
      rw [finishes_cons_iff, if_pos rfl, Consumes.stretch_iff, Consumes.cons_iff hc]
      simp [hfree, hsteps, and_assoc]
    | cons p elements ih =>
      rw [finishes_cons_iff, if_pos rfl, Consumes.stretch_iff, Consumes.cons_iff hc]
      rw [if_pos rfl] at ih
      simp only [hstretch, haccepts, hfree, hsteps, List.cons.injEq, true_and]
      constructor
      · rintro (⟨q, rest, ⟨rfl, rfl⟩, h⟩ | h | h)
        · exact Or.inr ⟨_, _, ⟨rfl, rfl⟩, ih.mp h⟩
        · exact Or.inl (Or.inl h)
        · obtain ⟨q, hq, ⟨hbare, htakes⟩, hrest⟩ := h
          exact Or.inl (Or.inr ⟨q, hq, hbare, htakes, hrest⟩)
      · rintro ((h | ⟨q, hq, hbare, htakes, hrest⟩) | ⟨q, rest, ⟨rfl, rfl⟩, h⟩)
        · exact Or.inr (Or.inl h)
        · exact Or.inr (Or.inr ⟨q, hq, ⟨hbare, htakes⟩, hrest⟩)
        · exact Or.inl ⟨_, _, ⟨rfl, rfl⟩, ih.mpr h⟩

/-- The steps of components go along the elements that the components consume, the
first step perhaps after a stretch. -/
theorem finishes_iff_consumes
    (h : stepsOf library isProperty b components = .ok (steps, trailing)) :
    Finishes trailing last steps elements ↔
      Consumes library isProperty false last (if b then .stretch :: components else components)
        elements := by
  induction components generalizing b steps last elements with
  | nil =>
    obtain ⟨rfl, rfl⟩ := Prod.mk.inj (Except.ok.inj h)
    rw [finishes_nil_iff]
    cases b with
    | false => simp [consumes_nil_iff]
    | true =>
      refine iff_of_true (Or.inl rfl) ?_
      rw [if_pos rfl, ← List.append_nil elements]
      exact .stretch elements .done
  | cons c components ih =>
    cases hc : c.isStretch with
    | true =>
      obtain rfl : c = .stretch := by cases c <;> simp_all [Component.isStretch]
      rw [ih h]
      cases b <;> simp [Consumes.stretch_stretch_iff]
    | false =>
      rw [stepsOf_cons hc] at h
      obtain ⟨s, hs, h⟩ := bind_eq_ok.mp h
      obtain ⟨⟨steps', trailing'⟩, hsteps, h⟩ := bind_eq_ok.mp h
      obtain ⟨rfl, rfl⟩ := Prod.mk.inj (Except.ok.inj h)
      refine finishes_cons_iff_consumes hc hs fun last elements => ?_
      simpa using ih hsteps

/-! ## Positions -/

variable {positions : List Bool} {reached : Bool}

/-- Whether some position in a set can go along some elements to the end. -/
def CanFinish (trailing : Bool) (last : Option Path) :
    List Step → List Bool → List Path → Prop
  | s :: steps, here :: positions, elements =>
    here = true ∧ Finishes trailing last (s :: steps) elements ∨
      CanFinish trailing last steps positions elements
  | [], here :: _, elements => here = true ∧ Finishes trailing last [] elements
  | _, [], _ => False

/-- Whether a set of positions has all those that free steps lead to. -/
def Closed (last : Option Path) : List Step → List Bool → Prop
  | s :: steps, here :: positions =>
    (here = true → ∀ q, last = some q → s.isFree q = true → positions.head? = some true) ∧
      Closed last steps positions
  | _, _ => True

/-- The set with the start only can do what the steps can do. -/
theorem canFinish_initial :
    CanFinish trailing last steps (initial steps) elements ↔
      Finishes trailing last steps elements := by
  have hnone : ∀ steps : List Step,
      ¬CanFinish trailing last steps (false :: steps.map fun _ => false) elements := by
    intro steps
    induction steps with
    | nil => simp [CanFinish]
    | cons s steps ih => simpa [CanFinish] using ih
  cases steps with
  | nil => simp [initial, CanFinish]
  | cons s steps =>
    rw [initial, List.map_cons, CanFinish]
    simp only [true_and, or_iff_left (hnone steps)]

/-- Where there is no last element there are no free steps. -/
theorem closed_none : Closed none steps positions := by
  induction steps generalizing positions with
  | nil => trivial
  | cons s steps ih =>
    cases positions with
    | nil => trivial
    | cons here positions => exact ⟨fun _ q hq => absurd hq (by simp), ih⟩

theorem head?_close (h : reached = true) (hne : positions ≠ []) :
    (close p reached steps positions).head? = some true := by
  obtain ⟨here, positions, rfl⟩ := List.exists_cons_of_ne_nil hne
  cases steps <;> simp [close, h]

theorem closed_close (hlen : positions.length = steps.length + 1) :
    Closed (some p) steps (close p reached steps positions) := by
  induction steps generalizing positions reached with
  | nil => trivial
  | cons s steps ih =>
    obtain ⟨here, positions, rfl⟩ := List.exists_cons_of_length_eq_add_one hlen
    have hlen' : positions.length = steps.length + 1 := by simpa using hlen
    refine ⟨?_, ih hlen'⟩
    intro hhere q hq hfree
    obtain rfl := Option.some.inj hq
    refine head?_close ?_ (List.ne_nil_of_length_eq_add_one hlen')
    rw [hfree, Bool.and_true]
    exact hhere

/-- Free steps add only what the positions could do before. -/
theorem canFinish_close (hlen : positions.length = steps.length + 1) :
    CanFinish trailing (some p) steps (close p reached steps positions) elements ↔
      reached = true ∧ Finishes trailing (some p) steps elements ∨
        CanFinish trailing (some p) steps positions elements := by
  induction steps generalizing positions reached with
  | nil =>
    obtain ⟨here, rfl⟩ := List.length_eq_one_iff.mp hlen
    simp only [close, CanFinish, Bool.or_eq_true, or_and_right]
    exact or_comm
  | cons s steps ih =>
    obtain ⟨here, positions, rfl⟩ := List.exists_cons_of_length_eq_add_one hlen
    simp only [close, CanFinish]
    rw [ih (by simpa using hlen)]
    simp only [Bool.or_eq_true, Bool.and_eq_true]
    constructor
    · rintro (⟨hhere | hreached, h⟩ | ⟨⟨hhere | hreached, hfree⟩, h⟩ | h)
      · exact Or.inr (Or.inl ⟨hhere, h⟩)
      · exact Or.inl ⟨hreached, h⟩
      · exact Or.inr (Or.inl ⟨hhere, .free hfree h⟩)
      · exact Or.inl ⟨hreached, .free hfree h⟩
      · exact Or.inr (Or.inr h)
    · rintro (⟨hreached, h⟩ | ⟨hhere, h⟩ | h)
      · exact Or.inl ⟨Or.inr hreached, h⟩
      · exact Or.inl ⟨Or.inl hhere, h⟩
      · exact Or.inr (Or.inr h)

theorem canFinish_of_head (hhead : positions.head? = some true)
    (h : Finishes trailing last steps elements) :
    CanFinish trailing last steps positions elements := by
  cases positions with
  | nil => exact absurd hhead (by simp)
  | cons here positions =>
    obtain rfl : here = true := Option.some.inj hhead
    cases steps with
    | nil => exact ⟨rfl, h⟩
    | cons s steps => exact Or.inl ⟨rfl, h⟩

/-- An element leads a closed set of positions to one that can do the rest. -/
theorem canFinish_take (hlen : positions.length = steps.length + 1)
    (hclosed : Closed last steps positions) :
    CanFinish trailing (some p) steps (take trailing p reached steps positions) elements ↔
      reached = true ∧ Finishes trailing (some p) steps elements ∨
        CanFinish trailing last steps positions (p :: elements) := by
  induction steps generalizing positions reached with
  | nil =>
    obtain ⟨here, rfl⟩ := List.length_eq_one_iff.mp hlen
    simp only [take, CanFinish, Bool.or_eq_true, Bool.and_eq_true, finishes_nil_iff]
    simp only [reduceCtorEq, or_false]
    constructor
    · rintro ⟨hreached | htrail, h⟩
      · exact Or.inl ⟨hreached, h⟩
      · exact Or.inr htrail
    · rintro (⟨hreached, h⟩ | htrail)
      · exact ⟨Or.inl hreached, h⟩
      · exact ⟨Or.inr htrail, Or.inl htrail.2⟩
  | cons s steps ih =>
    obtain ⟨here, positions, rfl⟩ := List.exists_cons_of_length_eq_add_one hlen
    obtain ⟨hhere, hclosed⟩ := hclosed
    have hlen' : positions.length = steps.length + 1 := by simpa using hlen
    simp only [take, CanFinish]
    rw [ih hlen' hclosed, finishes_cons_iff (p :: elements)]
    simp only [Bool.or_eq_true, Bool.and_eq_true, List.cons.injEq, exists_and_left,
      exists_eq_left', and_assoc]
    constructor
    · rintro (⟨hreached | ⟨hh, hstretch⟩, h⟩ | ⟨hh, htakes, h⟩ | h)
      · exact Or.inl ⟨hreached, h⟩
      · exact Or.inr (Or.inl ⟨hh, Or.inl ⟨hstretch, h⟩⟩)
      · exact Or.inr (Or.inl ⟨hh, Or.inr (Or.inl ⟨htakes, h⟩)⟩)
      · exact Or.inr (Or.inr h)
    · rintro (⟨hreached, h⟩ | ⟨hh, ⟨hstretch, h⟩ | ⟨htakes, h⟩ | ⟨q, hq, hfree, h⟩⟩ | h)
      · exact Or.inl ⟨Or.inl hreached, h⟩
      · exact Or.inl ⟨Or.inr ⟨hh, hstretch⟩, h⟩
      · exact Or.inr (Or.inl ⟨hh, htakes, h⟩)
      · -- Where the first step is free, the next position is in the set already.
        subst hq
        exact Or.inr (Or.inr (canFinish_of_head (hhere hh q rfl hfree) h))
      · exact Or.inr (Or.inr h)

/-- With no element left only the last position is at the end. -/
theorem canFinish_nil (hlen : positions.length = steps.length + 1)
    (hclosed : Closed last steps positions) :
    CanFinish trailing last steps positions [] ↔ positions.getLastD false = true := by
  induction steps generalizing positions with
  | nil =>
    obtain ⟨here, rfl⟩ := List.length_eq_one_iff.mp hlen
    simp [CanFinish, finishes_nil_iff]
  | cons s steps ih =>
    obtain ⟨here, positions, rfl⟩ := List.exists_cons_of_length_eq_add_one hlen
    obtain ⟨hhere, hclosed⟩ := hclosed
    have hlen' : positions.length = steps.length + 1 := by simpa using hlen
    obtain ⟨next, more, rfl⟩ := List.exists_cons_of_length_eq_add_one hlen'
    have hlast : (here :: next :: more).getLastD false = (next :: more).getLastD false := by
      simp
    rw [CanFinish, hlast, ← ih hlen' hclosed]
    constructor
    · rintro (⟨hh, h⟩ | h)
      · obtain ⟨_, _, _, h, _⟩ | ⟨_, _, h, _⟩ | ⟨q, hq, hfree, hrest⟩ :=
          (finishes_cons_iff []).mp h
        · exact absurd h (by simp)
        · exact absurd h (by simp)
        · rw [hq]
          exact canFinish_of_head (hhere hh q hq hfree) hrest
      · exact h
    · exact Or.inr

/-- A set that can finish has a position. -/
theorem any_of_canFinish (h : CanFinish trailing last steps positions elements) :
    positions.any id = true := by
  induction positions generalizing steps with
  | nil => cases steps <;> exact h.elim
  | cons here positions ih =>
    cases steps with
    | nil => simp [h.1]
    | cons s steps =>
      rcases h with ⟨hhere, _⟩ | h
      · simp [hhere]
      · simp [ih h]

/-! ## Runs -/

variable {a : Automaton}

theorem advanceAll_dead (a : Automaton) (elements : List Path) :
    a.advanceAll elements .dead = .dead := by
  induction elements with
  | nil => rfl
  | cons p elements ih => exact ih

/-- From a closed set of positions an automaton matches what the set can finish. -/
theorem matched_advanceAll_live (hlen : positions.length = a.steps.length + 1)
    (hclosed : Closed last a.steps positions) :
    (a.verdict (a.advanceAll elements (.live positions))).matched = true ↔
      CanFinish a.trailing last a.steps positions elements := by
  induction elements generalizing positions last with
  | nil =>
    rw [canFinish_nil hlen hclosed, advanceAll, List.foldl_nil, verdict_live]
  | cons p elements ih =>
    -- The positions after `p`, closed under the steps that are free there.
    have htaken : (take a.trailing p false a.steps positions).length = a.steps.length + 1 :=
      length_take hlen
    have hnext : CanFinish a.trailing (some p) a.steps
        (close p false a.steps (take a.trailing p false a.steps positions)) elements ↔
        CanFinish a.trailing last a.steps positions (p :: elements) := by
      rw [canFinish_close htaken, canFinish_take hlen hclosed]
      simp
    rw [← hnext, advanceAll, List.foldl_cons]
    simp only [advance]
    split
    · exact ih (by rw [length_close, htaken]) (closed_close htaken)
    · next hdead =>
      refine iff_of_false ?_ fun h => hdead (any_of_canFinish h)
      change ¬(a.verdict (a.advanceAll elements .dead)).matched = true
      rw [advanceAll_dead]
      simp [verdict, Verdict.always]

/-- Above its base an automaton is pending, and on any other way it is dead. -/
theorem advanceAll_pending (hne : ∀ p ∈ elements, p ≠ a.base) :
    a.advanceAll elements .pending = .pending ∨ a.advanceAll elements .pending = .dead := by
  induction elements with
  | nil => exact Or.inl rfl
  | cons p elements ih =>
    have hp : p ≠ a.base := hne p (by simp)
    rw [advanceAll, List.foldl_cons]
    simp only [advance, if_neg hp]
    split
    · exact ih fun q hq => hne q (by simp [hq])
    · exact Or.inr (advanceAll_dead a elements)

/-- Along the way to its base an automaton is pending. -/
theorem advanceAll_pending_of_within (hne : ∀ p ∈ elements, p ≠ a.base)
    (hwithin : ∀ p ∈ elements, a.base.isWithin p = true) :
    a.advanceAll elements .pending = .pending := by
  induction elements with
  | nil => rfl
  | cons p elements ih =>
    have hp : p ≠ a.base := hne p (by simp)
    rw [advanceAll, List.foldl_cons]
    simp only [advance, if_neg hp, if_pos (hwithin p (by simp))]
    exact ih (fun q hq => hne q (by simp [hq])) fun q hq => hwithin q (by simp [hq])

theorem advanceAll_append (a : Automaton) (front back : List Path) (s : State) :
    a.advanceAll (front ++ back) s = a.advanceAll back (a.advanceAll front s) :=
  List.foldl_append

/-- On the way to an element that leads to the base, an automaton is pending. -/
theorem advanceAll_lineage (hcount : p.elementCount ≠ 0) (hbase : a.base.isWithin p = true) :
    a.advanceAll p.lineage .pending = a.advance p .pending := by
  have hempty : a.base.isEmpty = false := Path.isEmpty_of_isWithin hbase
  rw [Path.lineage_eq_concat hcount, advanceAll_append, advanceAll_pending_of_within]
  · rfl
  · rintro q hq rfl
    have hlt := Path.elementCount_lt_of_mem_dropLast hq
    exact absurd (Path.elementCount_le_of_isWithin hbase) (Nat.not_le.mpr hlt)
  · intro q hq
    refine Path.isWithin_of_mem_lineage hempty ?_
    rw [Path.lineage_of_isWithin hbase]
    exact List.mem_append_left _ (List.dropLast_subset _ hq)

/-- At its base an automaton comes alive, with the steps that are free there taken. -/
theorem advanceAll_lineage_base (hempty : a.base.isEmpty = false)
    (hcount : a.base.elementCount ≠ 0) :
    a.advanceAll a.base.lineage .pending =
      .live (close a.base false a.steps (initial a.steps)) := by
  rw [advanceAll_lineage hcount (Path.isWithin_self hempty), advance, if_pos rfl]

/-- The run of an automaton along an absolute path ends in a match if the base leads
to the path and the steps go along the elements that follow. -/
theorem matched_iff_finishes (hp : p.isAbsolute = true) :
    (a.verdict (a.advanceAll p.lineage a.start)).matched = true ↔
      a.base.isAbsolute = true ∧ p.isWithin a.base = true ∧
        Finishes a.trailing a.base.lineage.getLast? a.steps
          (p.lineage.drop a.base.elementCount) := by
  have hempty : p.isEmpty = false := by
    rw [Path.isAbsolute, beq_iff_eq] at hp
    simp [Path.isEmpty, hp]
  unfold start
  split
  · next hroot =>
    obtain ⟨habs, hwithin, hnil⟩ := Path.of_isRoot hroot
    have hcount : a.base.elementCount = 0 := by rw [← Path.length_lineage, hnil]; rfl
    rw [matched_advanceAll_live (length_initial _) closed_none, canFinish_initial, hnil, hcount]
    simp [habs, hwithin p hp]
  · next hroot =>
    split
    · next habs =>
      have hcount : a.base.elementCount ≠ 0 := Path.elementCount_ne_zero habs hroot
      have hbase : a.base.isEmpty = false := by
        rw [Path.isAbsolute, beq_iff_eq] at habs
        simp [Path.isEmpty, habs]
      by_cases hwithin : p.isWithin a.base = true
      · have hlast : a.base.lineage.getLast? = some a.base := by
          rw [Path.lineage_eq_concat hcount, List.getLast?_concat]
        rw [Path.lineage_of_isWithin hwithin, advanceAll_append,
          advanceAll_lineage_base hbase hcount,
          matched_advanceAll_live (by rw [length_close, length_initial])
            (closed_close (length_initial _)),
          canFinish_close (length_initial _), canFinish_initial, hlast,
          ← Path.lineage_of_isWithin hwithin]
        simp [habs, hwithin]
      · have hne : ∀ q ∈ p.lineage, q ≠ a.base := by
          rintro q hq rfl
          exact hwithin (Path.isWithin_of_mem_lineage hempty hq)
        rcases advanceAll_pending hne with h | h <;>
          simp [h, hwithin, verdict, Verdict.varying, Verdict.always]
    · next habs =>
      rw [advanceAll_dead]
      simp [habs, verdict, Verdict.always]

/-- The automaton of a pattern matches what the pattern matches. -/
theorem matched_iff_matches {q : Pattern} (h : ofPattern library q = .ok a)
    (hp : p.isAbsolute = true) :
    (a.verdict (a.advanceAll p.lineage a.start)).matched = true ↔ q.Matches library p := by
  obtain ⟨⟨steps, trailing⟩, hsteps, h⟩ := bind_eq_ok.mp h
  rw [matched_iff_finishes hp, ← Except.ok.inj h, finishes_iff_consumes hsteps]
  rfl

end Automaton

end PathSets
