import PathSets.Proofs.ExpressionForm
import PathSets.Proofs.Relocation
import PathSets.Proofs.VerdictAlgebra

/-!
# Matching moved expressions

Moving an expression from below one prim to below another does not change what it matches
there: a path within the first prim and the moved path have the same verdict
(`Evaluator.matchPath_rebase`).

* Both paths go on from their prims in the same way, so they are of the same kind, have the
  same elements below their prims and, unless they are the prims themselves, the same name
  (`Path.lineage_rebase`, `Path.name_rebase`).
* A library has to answer alike on both (`Library.Alike`), as the basic one does.
* An automaton is pending on its way to the prim, and from there on it and the automaton of
  the moved pattern are in the same state (`Automaton.advance_rebase` for one element,
  `Automaton.advanceAll_rebase` for all below the prim).  At the prim itself they may
  differ about its name, but only free steps are taken there, which ask for none.
* Moving puts leaves in the places of leaves, so the verdicts on the leaves are all that
  counts (`Expression.WellFormed.matchPath_moved`).
-/

namespace PathSets

/-! ## Paths below a prim -/

namespace Path

variable {p q top top' old new : Path} {rest rest' : List String}
  {property property' : Option String}

theorem isWithin_below (htop : top.isEmpty = false) (htop' : top.isProperty = false) :
    (top.below rest property).isWithin top = true :=
  isWithin_of_prims rest htop rfl htop' rfl

/-! ### What does not depend on the prim

Two paths that go on in the same way from two prims are hard to tell apart. -/

theorem isPrim_below (htop : top.isPrim = true) (htop' : top'.isPrim = true) :
    (top.below rest property).isPrim = (top'.below rest property).isPrim := by
  have hlast : top.prims.getLast?.any (· != upElement) = true := by
    simp only [isPrim, Bool.and_eq_true] at htop
    exact htop.2
  have hlast' : top'.prims.getLast?.any (· != upElement) = true := by
    simp only [isPrim, Bool.and_eq_true] at htop'
    exact htop'.2
  by_cases hrest : rest = []
  · simp [isPrim, isProperty, below, hrest, hlast, hlast']
  · simp [isPrim, isProperty, below, List.getLast?_append_of_ne_nil _ hrest]

theorem name_below (hne : rest ≠ [] ∨ property ≠ none) :
    (top.below rest property).name = (top'.below rest property).name := by
  cases property with
  | some x => rfl
  | none =>
    have hrest : rest ≠ [] := hne.resolve_right (absurd rfl)
    obtain ⟨last, hlast⟩ : ∃ last, rest.getLast? = some last :=
      ⟨_, List.getLast?_eq_some_getLast hrest⟩
    simp [name, below, List.getLast?_append_of_ne_nil _ hrest, hlast]

/-- Of two paths below the same prim, how they go on tells whether one leads to the
other. -/
theorem isWithin_below_below (htop : top.isEmpty = false) :
    (top.below rest property).isWithin (top.below rest' property') = true ↔
      if property'.isSome then rest = rest' ∧ property = property' else rest' <+: rest := by
  have hsome : ∀ rest property, (top.below rest property).isEmpty = false := fun _ _ => htop
  simp only [isWithin, hsome]
  cases property' with
  | some x =>
    simp only [isProperty, below, Option.isSome_some, if_true]
    simp
  | none =>
    simp only [isProperty, below, Option.isSome_none]
    simp

/-! ### Moving -/

/-- An absolute path to a named prim. -/
structure IsPrimPath (p : Path) : Prop where
  absolute : p.isAbsolute = true
  prim : p.isPrim = true

theorem IsPrimPath.isProperty (h : p.IsPrimPath) : p.isProperty = false := by
  have hprim := h.prim
  simp only [isPrim, Bool.and_eq_true, Bool.not_eq_true'] at hprim
  exact hprim.1

theorem IsPrimPath.prims_ne_nil (h : p.IsPrimPath) : p.prims ≠ [] := by
  intro hnil
  have hprim := h.prim
  simp [isPrim, hnil] at hprim

theorem IsPrimPath.takesProperty (h : p.IsPrimPath) : TakesProperty p.anchor p.prims := by
  have hprim := h.prim
  simp only [isPrim, Bool.and_eq_true] at hprim
  exact Or.inl hprim.2

theorem IsPrimPath.elementCount_ne_zero (h : p.IsPrimPath) : p.elementCount ≠ 0 := by
  simp [elementCount, h.prims_ne_nil]

theorem IsPrimPath.isEmpty (h : p.IsPrimPath) : p.isEmpty = false :=
  isEmpty_of_isAbsolute h.absolute

/-- What is within such a path is absolute and not the root. -/
theorem IsPrimPath.isAbsolute_of_isWithin (h : top.IsPrimPath) (hp : p.isWithin top = true) :
    p.isAbsolute = true := by
  obtain ⟨rest, property, rfl⟩ := exists_below h.isProperty hp
  exact h.absolute

theorem IsPrimPath.isRoot_of_isWithin (h : top.IsPrimPath) (hp : p.isWithin top = true) :
    p.isRoot = false := by
  obtain ⟨rest, property, rfl⟩ := exists_below h.isProperty hp
  simp [isRoot, below, h.prims_ne_nil]

section Moving

variable (hold : old.IsPrimPath) (hnew : new.IsPrimPath)
include hold hnew

/-- Moving keeps how a path goes on. -/
theorem rebase_below : (old.below rest property).rebase old new = new.below rest property := by
  have hwithin : (old.below rest property).isWithin old = true :=
    isWithin_below hold.isEmpty hold.isProperty
  have hrest : (old.below rest property).prims.drop old.prims.length = rest :=
    List.drop_left
  have hproperty : new.property = none := by
    simpa [isProperty] using hnew.isProperty
  simp only [rebase, hwithin, hnew.isEmpty, hold.isProperty, hnew.isProperty, hrest,
    List.isEmpty_eq_false_iff.mpr hnew.prims_ne_nil, hproperty]
  simp [below]

theorem rebase_self : old.rebase old new = new := by
  have hmoved : (old.below [] none).rebase old new = new.below [] none := rebase_below hold hnew
  rwa [below_nil hold.isProperty, below_nil hnew.isProperty] at hmoved

theorem isPrim_rebase (hp : p.isWithin old = true) : (p.rebase old new).isPrim = p.isPrim := by
  obtain ⟨rest, property, rfl⟩ := exists_below hold.isProperty hp
  rw [rebase_below hold hnew]
  exact isPrim_below hnew.prim hold.prim

theorem isProperty_rebase (hp : p.isWithin old = true) :
    (p.rebase old new).isProperty = p.isProperty := by
  obtain ⟨rest, property, rfl⟩ := exists_below hold.isProperty hp
  rw [rebase_below hold hnew]
  rfl

theorem rebase_isWithin (hp : p.isWithin old = true) :
    (p.rebase old new).isWithin new = true := by
  obtain ⟨rest, property, rfl⟩ := exists_below hold.isProperty hp
  rw [rebase_below hold hnew]
  exact isWithin_below hnew.isEmpty hnew.isProperty

/-- Only the prim that is moved itself may get another name. -/
theorem name_rebase (hp : p.isWithin old = true) (hne : p ≠ old) :
    (p.rebase old new).name = p.name := by
  obtain ⟨rest, property, rfl⟩ := exists_below hold.isProperty hp
  rw [rebase_below hold hnew]
  refine name_below ?_
  by_contra hnone
  rw [not_or, not_not, not_not] at hnone
  exact hne (by rw [hnone.1, hnone.2, below_nil hold.isProperty])

theorem rebase_inj (hp : p.isWithin old = true) (hq : q.isWithin old = true) :
    p.rebase old new = q.rebase old new ↔ p = q := by
  obtain ⟨rest, property, rfl⟩ := exists_below hold.isProperty hp
  obtain ⟨rest', property', rfl⟩ := exists_below hold.isProperty hq
  rw [rebase_below hold hnew, rebase_below hold hnew, below_inj, below_inj]

theorem isWithin_rebase (hp : p.isWithin old = true) (hq : q.isWithin old = true) :
    (p.rebase old new).isWithin (q.rebase old new) = p.isWithin q := by
  obtain ⟨rest, property, rfl⟩ := exists_below hold.isProperty hp
  obtain ⟨rest', property', rfl⟩ := exists_below hold.isProperty hq
  rw [rebase_below hold hnew, rebase_below hold hnew, Bool.eq_iff_iff,
    isWithin_below_below hold.isEmpty, isWithin_below_below hnew.isEmpty]

theorem map_rebase_elementsBelow (rest : List String) (property : Option String) :
    (old.elementsBelow rest property).map (·.rebase old new) = new.elementsBelow rest property := by
  rw [elementsBelow, elementsBelow, List.map_append, List.map_map]
  congr 1
  · exact List.map_congr_left fun i _ => rebase_below hold hnew
  · cases property with
    | none => rfl
    | some x => simp [rebase_below hold hnew]

/-- The elements of a path within `old` are those of `old` and others below it.  Moving the
path moves the others. -/
theorem lineage_rebase (hp : p.isWithin old = true) :
    ∃ more, p.lineage = old.lineage ++ more ∧
      (p.rebase old new).lineage = new.lineage ++ more.map (·.rebase old new) ∧
      ∀ q ∈ more, q.isWithin old = true ∧ q ≠ old := by
  obtain ⟨rest, property, rfl⟩ := exists_below hold.isProperty hp
  refine ⟨old.elementsBelow rest property, lineage_below hold.isProperty, ?_, ?_⟩
  · rw [rebase_below hold hnew, lineage_below hnew.isProperty,
      map_rebase_elementsBelow hold hnew]
  · intro q hq
    obtain ⟨rest', property', hne, rfl⟩ := exists_of_mem_elementsBelow hq
    refine ⟨isWithin_below hold.isEmpty hold.isProperty, fun heq => ?_⟩
    have hnone : old.below rest' property' = old.below [] none :=
      heq.trans (below_nil hold.isProperty).symm
    rw [below_inj] at hnone
    exact hne.elim (absurd hnone.1) (absurd hnone.2)

end Moving

end Path

/-! ## Libraries and steps -/

variable {library : Library} {p q old new : Path}

/-- No function of the library can tell one path from the other. -/
def Library.Alike (library : Library) (p q : Path) : Prop :=
  ∀ name test, library.find? name = some test → test p = test q

/-- No function of the library can tell a path from the moved one. -/
def Library.Ignores (library : Library) (old new : Path) : Prop :=
  ∀ p : Path, p.isWithin old = true → library.Alike (p.rebase old new) p

/-- The basic functions see only the kind of a path. -/
theorem Library.alike_basic (hprim : p.isPrim = q.isPrim)
    (hproperty : p.isProperty = q.isProperty) : Library.basic.Alike p q := by
  intro name test h
  simp only [basic, define, empty] at h
  split at h
  · obtain rfl := Option.some.inj h
    exact funext fun _ => hproperty
  split at h
  · obtain rfl := Option.some.inj h
    exact funext fun _ => hprim
  · exact absurd h (by simp)

theorem Predicate.holds_iff_of_alike (h : library.Alike p q) (predicate : Predicate) :
    predicate.Holds library p ↔ predicate.Holds library q := by
  induction predicate with
  | call c => exact exists_congr fun test => and_congr_right fun htest => by rw [h _ _ htest]
  | not operand ih => exact not_congr ih
  | binary op left right ihLeft ihRight =>
    cases op with
    | or => exact or_congr ihLeft ihRight
    | juxtaposition | and => exact and_congr ihLeft ihRight

theorem Step.allows_of_alike {afterStretch endsProperty : Bool} {c : Component} {s : Step}
    (h : library.Alike p q) (hs : ofComponent library afterStretch endsProperty c = .ok s) :
    s.allows p = s.allows q := by
  obtain ⟨name, -, hs⟩ := bind_eq_ok.mp hs
  obtain ⟨condition, hcondition, hs⟩ := bind_eq_ok.mp hs
  obtain rfl := Except.ok.inj hs
  rw [Bool.eq_iff_iff, allows, allows, all_of_linkCondition hcondition,
    all_of_linkCondition hcondition]
  exact forall₂_congr fun predicate _ => predicate.holds_iff_of_alike h

/-- The condition of the step cannot tell a path from the moved one. -/
def Step.Ignores (s : Step) (old new : Path) : Prop :=
  ∀ p : Path, p.isWithin old = true → s.allows (p.rebase old new) = s.allows p

/-- What is true of the step of every component is true of all steps of a pattern. -/
theorem Automaton.forall_stepsOf {P : Step → Prop} {isProperty afterStretch trailing : Bool}
    {components : List Component} {steps : List Step}
    (hP : ∀ afterStretch endsProperty c s,
      Step.ofComponent library afterStretch endsProperty c = .ok s → P s)
    (h : stepsOf library isProperty afterStretch components = .ok (steps, trailing)) :
    ∀ s ∈ steps, P s := by
  induction components generalizing afterStretch steps with
  | nil =>
    obtain ⟨rfl, -⟩ := Prod.mk.inj (Except.ok.inj h)
    exact nofun
  | cons c components ih =>
    cases hc : c.isStretch with
    | true =>
      obtain rfl := Component.eq_stretch hc
      exact ih h
    | false =>
      rw [stepsOf_cons hc] at h
      obtain ⟨first, hfirst, h⟩ := bind_eq_ok.mp h
      obtain ⟨⟨others, trailing'⟩, hothers, h⟩ := bind_eq_ok.mp h
      obtain ⟨rfl, rfl⟩ := Prod.mk.inj (Except.ok.inj h)
      intro s hs
      rcases List.mem_cons.mp hs with rfl | hs
      · exact hP _ _ _ _ hfirst
      · exact ih hothers s hs

section Moving

variable (hold : old.IsPrimPath) (hnew : new.IsPrimPath)
include hold hnew

theorem Library.ignores_basic : Library.basic.Ignores old new := fun _ hp =>
  alike_basic (Path.isPrim_rebase hold hnew hp) (Path.isProperty_rebase hold hnew hp)

theorem KindTest.accepts_rebase (kind : KindTest) (hp : p.isWithin old = true) :
    kind.accepts (p.rebase old new) = kind.accepts p := by
  cases kind with
  | prim => exact Path.isPrim_rebase hold hnew hp
  | property => exact Path.isProperty_rebase hold hnew hp
  | either => rfl

/-- A step takes an element below `old` if and only if it takes the moved one. -/
theorem Step.accepts_rebase {s : Step} (hs : s.Ignores old new)
    (hp : p.isWithin old = true) (hne : p ≠ old) :
    s.accepts (p.rebase old new) = s.accepts p := by
  rw [accepts, accepts, s.kind.accepts_rebase hold hnew hp, Path.name_rebase hold hnew hp hne,
    hs p hp]

/-- Free steps do not ask for the name, so for them `old` is no exception. -/
theorem Step.isFree_rebase {s : Step} (hs : s.Ignores old new)
    (hp : p.isWithin old = true) : s.isFree (p.rebase old new) = s.isFree p := by
  have hkind := s.kind.accepts_rebase hold hnew hp
  cases hname : s.name with
  | any => simp only [isFree, accepts, hname, NameTest.accepts, hkind, hs p hp]
  | exactly name => simp [isFree, hname, NameTest.isAny]
  | fits matcher => simp [isFree, hname, NameTest.isAny]

end Moving

/-! ## Runs -/

namespace Automaton

variable {a : Automaton} {steps : List Step} {trailing reached : Bool} {positions : List Bool}
  {elements : List Path} {state : State}

theorem close_congr (h : ∀ s ∈ steps, s.isFree q = s.isFree p) :
    close q reached steps positions = close p reached steps positions := by
  induction steps generalizing positions reached with
  | nil => cases positions <;> rfl
  | cons s steps ih =>
    cases positions with
    | nil => rfl
    | cons here positions =>
      rw [close, close, h s (by simp), ih fun t ht => h t (by simp [ht])]

theorem take_congr (h : ∀ s ∈ steps, s.accepts q = s.accepts p) :
    take trailing q reached steps positions = take trailing p reached steps positions := by
  induction steps generalizing positions reached with
  | nil => cases positions <;> rfl
  | cons s steps ih =>
    cases positions with
    | nil => rfl
    | cons here positions =>
      rw [take, take, h s (by simp), ih fun t ht => h t (by simp [ht])]

/-- The automaton of the moved pattern. -/
def rebase (a : Automaton) (old new : Path) : Automaton :=
  { a with base := a.base.rebase old new }

/-- The conditions of all steps cannot tell a path from the moved one. -/
def Ignores (a : Automaton) (old new : Path) : Prop :=
  ∀ s ∈ a.steps, s.Ignores old new

theorem start_of_isWithin (hold : old.IsPrimPath) (hbase : a.base.isWithin old = true) :
    a.start = .pending := by
  rw [start, hold.isRoot_of_isWithin hbase, if_neg (by simp),
    if_pos (hold.isAbsolute_of_isWithin hbase)]

section Moving

variable (hold : old.IsPrimPath) (hnew : new.IsPrimPath) (ha : a.Ignores old new)
  (hbase : a.base.isWithin old = true)
include hold hnew ha

theorem close_rebase (hp : p.isWithin old = true) :
    close (p.rebase old new) reached a.steps positions = close p reached a.steps positions :=
  close_congr fun s hs => Step.isFree_rebase hold hnew (ha s hs) hp

theorem take_rebase (hp : p.isWithin old = true) (hne : p ≠ old) :
    take trailing (p.rebase old new) reached a.steps positions =
      take trailing p reached a.steps positions :=
  take_congr fun s hs => Step.accepts_rebase hold hnew (ha s hs) hp hne

include hbase

/-- Above the base and at it, the moved automaton does what the automaton does. -/
theorem advance_rebase_pending (hp : p.isWithin old = true) :
    (a.rebase old new).advance (p.rebase old new) .pending = a.advance p .pending := by
  simp only [advance, rebase, Path.rebase_inj hold hnew hp hbase,
    Path.isWithin_rebase hold hnew hbase hp, close_rebase hold hnew ha hp]

/-- Below `old`, the moved automaton does in every state what the automaton does. -/
theorem advance_rebase (hp : p.isWithin old = true) (hne : p ≠ old) (state : State) :
    (a.rebase old new).advance (p.rebase old new) state = a.advance p state := by
  cases state with
  | dead => rfl
  | pending => exact advance_rebase_pending hold hnew ha hbase hp
  | live positions =>
    simp only [advance, rebase, take_rebase hold hnew ha hp hne, close_rebase hold hnew ha hp]

theorem advanceAll_rebase (helements : ∀ p ∈ elements, p.isWithin old = true ∧ p ≠ old)
    (state : State) :
    (a.rebase old new).advanceAll (elements.map (·.rebase old new)) state =
      a.advanceAll elements state := by
  induction elements generalizing state with
  | nil => rfl
  | cons p elements ih =>
    obtain ⟨hp, hne⟩ := helements p (by simp)
    have hstep := advance_rebase hold hnew ha hbase hp hne state
    simp only [advanceAll, List.map_cons, List.foldl_cons] at ih ⊢
    rw [hstep]
    exact ih (fun q hq => helements q (by simp [hq])) _

/-- The moved automaton comes to the same verdict on the moved path. -/
theorem verdict_rebase (hp : p.isWithin old = true) :
    (a.rebase old new).verdict
        ((a.rebase old new).advanceAll (p.rebase old new).lineage (a.rebase old new).start) =
      a.verdict (a.advanceAll p.lineage a.start) := by
  have hself := Path.rebase_self hold hnew
  have hbase' : (a.rebase old new).base.isWithin new = true :=
    Path.rebase_isWithin hold hnew hbase
  obtain ⟨more, hlineage, hmoved, hmore⟩ := Path.lineage_rebase hold hnew hp
  have hpending := advance_rebase_pending hold hnew ha hbase (Path.isWithin_self hold.isEmpty)
  rw [hself] at hpending
  rw [hlineage, hmoved, start_of_isWithin hold hbase, start_of_isWithin hnew hbase',
    advanceAll_append, advanceAll_append, advanceAll_lineage hnew.elementCount_ne_zero hbase',
    advanceAll_lineage hold.elementCount_ne_zero hbase, hpending,
    advanceAll_rebase hold hnew ha hbase hmore]
  rfl

end Moving

end Automaton

/-! ## Patterns -/

/-- A well-formed pattern is moved by moving its base, if that stays what it is. -/
theorem Pattern.WellFormed.rebase_eq {q : Pattern} (hq : q.WellFormed)
    (h : (q.base.rebase old new).isProperty = q.base.isProperty) :
    q.rebase old new = { q with base := q.base.rebase old new } := by
  have hproperty := hq.property
  have hcomponents := hq.components
  obtain ⟨base, components, isProperty⟩ := q
  rw [Pattern.rebase, Pattern.setBase]
  dsimp only at h hproperty hcomponents ⊢
  cases hbase : base.isProperty with
  | true =>
    obtain ⟨rfl, rfl⟩ := hproperty hbase
    simp [h, hbase]
  | false =>
    by_cases hnil : components = []
    · subst hnil
      have hopen : isProperty = false := by
        cases hcomponents hbase with
        | done hopen => exact hopen
      simp [h, hbase, hopen]
    · simp [h, hbase, hnil]

theorem Automaton.base_ofPattern {q : Pattern} {a : Automaton}
    (ha : ofPattern library q = .ok a) : a.base = q.base := by
  obtain ⟨steps, -, ha⟩ := bind_eq_ok.mp ha
  obtain rfl := Except.ok.inj ha
  rfl

theorem Automaton.ignores_ofPattern {q : Pattern} {a : Automaton}
    (hlibrary : library.Ignores old new) (ha : ofPattern library q = .ok a) :
    a.Ignores old new := by
  obtain ⟨⟨steps, trailing⟩, hsteps, ha⟩ := bind_eq_ok.mp ha
  obtain rfl := Except.ok.inj ha
  refine forall_stepsOf (fun _ _ c s hs p hp => ?_) hsteps
  exact Step.allows_of_alike (hlibrary p hp) hs

theorem Automaton.ofPattern_rebase {q : Pattern} {a : Automaton} (hq : q.WellFormed)
    (h : (q.base.rebase old new).isProperty = q.base.isProperty)
    (ha : ofPattern library q = .ok a) :
    ofPattern library (q.rebase old new) = .ok (a.rebase old new) := by
  obtain ⟨⟨steps, trailing⟩, hsteps, ha⟩ := bind_eq_ok.mp ha
  obtain rfl := Except.ok.inj ha
  rw [hq.rebase_eq h, ofPattern, hsteps, ok_bind]
  rfl

/-! ## Expressions -/

section Moving

variable {l : Leaf} {e : Expression} {ev : Evaluator}
  (hold : old.IsPrimPath) (hnew : new.IsPrimPath)
  (hlibrary : library.Ignores old new)
include hold hnew hlibrary

/-- A leaf that can be matched still can when it is moved, and has the same verdict on the
moved path. -/
theorem Leaf.verdict_rebase (hl : l.WellFormed) (hcompiles : l.Compiles library)
    (hbase : ∀ q, l = .pattern q → q.base.isWithin old = true) (hp : p.isWithin old = true) :
    (l.rebase old new).Compiles library ∧
      (l.rebase old new).verdict library (p.rebase old new) = l.verdict library p := by
  cases l with
  | reference r => exact hcompiles.elim
  | pattern q =>
    obtain ⟨a, ha⟩ := hcompiles
    have hwithin := hbase q rfl
    have hmoved := Automaton.ofPattern_rebase hl
      (Path.isProperty_rebase hold hnew hwithin) ha
    refine ⟨⟨_, hmoved⟩, ?_⟩
    have hrun := Automaton.verdict_rebase hold hnew (Automaton.ignores_ofPattern hlibrary ha)
      (Automaton.base_ofPattern ha ▸ hwithin) hp
    simpa only [Leaf.rebase, verdict, hmoved, ha] using hrun

/-- An expression that can be matched still can when it is moved, and gives the moved path
the verdict that the expression gives to the path. -/
theorem Expression.WellFormed.matchPath_moved (he : e.WellFormed)
    (hbases : ∀ q, .pattern q ∈ e.leaves → q.base.isWithin old = true)
    (hp : p.isWithin old = true) (hev : Evaluator.ofExpression library e = .ok ev) :
    ∃ moved, Evaluator.ofExpression library (e.rebase old new) = .ok moved ∧
      moved.matchPath (p.rebase old new) = ev.matchPath p := by
  have hleaf : ∀ l ∈ e.leaves, (l.rebase old new).Compiles library ∧
      (l.rebase old new).verdict library (p.rebase old new) = l.verdict library p := by
    intro l hl
    refine Leaf.verdict_rebase hold hnew hlibrary (he.leaf hl)
      (exists_evaluator_iff.mp ⟨ev, hev⟩ l hl) ?_ hp
    rintro q rfl
    exact hbases q hl
  have hcompiles : ∀ l ∈ (e.rebase old new).leaves, l.Compiles library := by
    refine (closed_compiles library).rebase fun l hl x hx => ?_
    obtain rfl := List.mem_singleton.mp hx
    exact (hleaf l hl).1
  obtain ⟨moved, hmoved⟩ := exists_evaluator_iff.mpr hcompiles
  refine ⟨moved, hmoved, ?_⟩
  have habsolute := hnew.isAbsolute_of_isWithin (Path.rebase_isWithin hold hnew hp)
  rw [Evaluator.matchPath_eq_value hmoved habsolute,
    Evaluator.matchPath_eq_value hev (hold.isAbsolute_of_isWithin hp), Expression.rebase,
    (lawful_verdicts library _).value_mapLeaves fun _ _ _ _ => trivial]
  exact Interpretation.value_congr (R := verdicts library p) fun l hl => (hleaf l hl).2

end Moving

/-- An expression whose patterns all have their bases within one prim can be moved to another
one: with the basic functions it can still be matched, and every path within the first prim
has the same verdict as the moved path, also whether it is constant. -/
theorem Evaluator.matchPath_rebase {text : String} {e : Expression} {ev : Evaluator}
    (h : Expression.parse text = .ok e) (hold : old.IsPrimPath) (hnew : new.IsPrimPath)
    (hbases : ∀ q, .pattern q ∈ e.leaves → q.base.isWithin old = true)
    (hp : p.isWithin old = true) (hev : ofExpression .basic e = .ok ev) :
    ∃ moved, ofExpression .basic (e.rebase old new) = .ok moved ∧
      moved.matchPath (p.rebase old new) = ev.matchPath p := by
  have he : e.WellFormed := (Expression.wellFormed_of_parse h).1
  exact he.matchPath_moved hold hnew (Library.ignores_basic hold hnew) hbases hp hev

/-- Moved from `/World` to `/Home/x`, a predicate that consumes nothing at the prim itself
holds there too. -/
theorem Evaluator.matchPath_rebase_at_prim :
    let old : Path := ⟨.absolute, ["World"], none⟩
    let new : Path := ⟨.absolute, ["Home", "x"], none⟩
    ∃ e ev moved, Expression.parse "/World//{isPrimPath} - /World/a.x*" = .ok e ∧
      (∀ q, .pattern q ∈ e.leaves → q.base.isWithin old = true) ∧
      (e.rebase old new).text = "/Home/x//{isPrimPath} - /Home/x/a.x*" ∧
      ofExpression .basic e = .ok ev ∧ ofExpression .basic (e.rebase old new) = .ok moved ∧
      ev.matchPath old = .varying true ∧ moved.matchPath (old.rebase old new) = .varying true := by
  intro old new
  let e : Expression := .of (.binary .difference
    (.leaf (.pattern ⟨old, [.stretch, .bare (.call ⟨.bare, "isPrimPath", []⟩)], false⟩))
    (.leaf (.pattern ⟨⟨.absolute, ["World", "a"], none⟩, [.glob "x*" none], true⟩)))
  have hparse : Expression.parse "/World//{isPrimPath} - /World/a.x*" = .ok e := by decide +kernel
  have hbases : ∀ q, .pattern q ∈ e.leaves → q.base.isWithin old = true := by
    intro q hq
    obtain rfl | rfl : q = ⟨old, _, _⟩ ∨ q = ⟨⟨.absolute, ["World", "a"], none⟩, _, _⟩ := by
      simpa [e, Expression.leaves, Tree.leaves] using hq
    · rfl
    · rfl
  have hev : ofExpression .basic e = .ok _ := rfl
  obtain ⟨moved, hmoved, hsame⟩ :=
    matchPath_rebase hparse ⟨rfl, rfl⟩ (⟨rfl, rfl⟩ : new.IsPrimPath) hbases
      (Path.isWithin_self rfl) hev
  have hverdict := hsame.trans (by decide : _ = Verdict.varying true)
  exact ⟨e, _, moved, hparse, hbases, by decide +kernel, hev, hmoved, by decide, hverdict⟩

end PathSets
