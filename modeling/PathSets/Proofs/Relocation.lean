import PathSets.Expression.Relocation
import PathSets.Proofs.Lineage
import PathSets.Proofs.PatternForm

/-!
# Moved paths and patterns

Anchoring a well-formed path gives a well-formed path (`Path.WellFormed.anchorAt`), and
so does moving one that can be moved (`Path.WellFormed.rebase`): a path of which `..` is
left has to go behind a path that goes up itself, and a property needs a prim or `.` to
stand on (`Path.CanMove`).

Components continue any base, except that a property which is the first of them needs a
base that takes it.  A pattern is `Pattern.Assembled` if that is all it may lack, and giving
it another base never makes it lack more (`Pattern.Assembled.setBase`).  So anchoring a
pattern goes wrong in one case only, a pattern that is nothing but a property, as seen from
the root (`Pattern.WellFormed.anchorAt_iff`), and moving it also where its base cannot be moved
(`Pattern.WellFormed.rebase_iff`).
-/

namespace PathSets

/-! ## Paths -/

namespace Path

variable {p q old new anchor : Path} {prims front rest : List String} {start : Anchor}

theorem Descends.drop (h : Descends start prims) (n : Nat) : Descends start (prims.drop n) := by
  obtain ⟨ups, names, rfl, hnames, hups⟩ := h
  refine ⟨ups - n, names.drop (n - ups), ?_, ?_, ?_⟩
  · rw [List.drop_append, List.drop_replicate, List.length_replicate]
  · exact fun name hname => hnames name (List.mem_of_mem_drop hname)
  · exact fun hne => hups (by omega)

theorem Descends.append_names (h : Descends start front)
    (hnames : ∀ name ∈ rest, isIdentifier name.toList = true) : Descends start (front ++ rest) := by
  obtain ⟨ups, names, rfl, hfront, hups⟩ := h
  refine ⟨ups, names ++ rest, List.append_assoc .., ?_, hups⟩
  intro name hname
  rcases List.mem_append.mp hname with hname | hname
  · exact hfront name hname
  · exact hnames name hname

/-- Prims that follow others: if they go up first, so do all the others. -/
theorem Descends.append_prims {other : Anchor} (hfront : Descends start front)
    (hrest : Descends other rest)
    (hup : rest.head? = some upElement → start = .relative ∧ ∀ prim ∈ front, prim = upElement) :
    Descends start (front ++ rest) := by
  obtain ⟨ups, names, rfl, hnames, -⟩ := hrest
  cases ups with
  | zero => exact hfront.append_names hnames
  | succ ups =>
    obtain ⟨hrelative, hall⟩ := hup rfl
    obtain ⟨count, rfl⟩ : ∃ count, front = List.replicate count upElement :=
      ⟨front.length, List.eq_replicate_of_mem hall⟩
    refine ⟨count + (ups + 1), names, ?_, hnames, fun _ => hrelative⟩
    rw [← List.append_assoc, List.replicate_append_replicate]

theorem Descends.isIdentifier (h : Descends .absolute prims) :
    ∀ name ∈ prims, isIdentifier name.toList = true := by
  obtain ⟨ups, names, rfl, hnames, hups⟩ := h
  have hzero : ups = 0 := by
    by_contra hne
    exact absurd (hups hne) (by decide)
  subst hzero
  exact hnames

theorem descends_of_isIdentifier (h : ∀ name ∈ prims, PathSets.isIdentifier name.toList = true) :
    Descends start prims :=
  ⟨0, prims, rfl, h, fun hne => absurd rfl hne⟩

/-- The names of an absolute path are enough for a property, if there are any. -/
theorem takesProperty_of_isIdentifier (hne : prims ≠ [])
    (h : ∀ name ∈ prims, PathSets.isIdentifier name.toList = true) : TakesProperty start prims := by
  obtain ⟨names, last, rfl⟩ : ∃ names last, prims = names ++ [last] :=
    ⟨_, _, (List.dropLast_concat_getLast hne).symm⟩
  exact takesProperty_append (h last (by simp))

/-! ### Anchoring -/

theorem isIdentifier_of_descend (hstart : ∀ name ∈ front, PathSets.isIdentifier name.toList = true)
    (hprims : ∀ name ∈ prims, name = upElement ∨ PathSets.isIdentifier name.toList = true)
    (h : descend front prims = some rest) :
    ∀ name ∈ rest, PathSets.isIdentifier name.toList = true := by
  induction prims generalizing front with
  | nil =>
    obtain rfl := Option.some.inj h
    exact hstart
  | cons name names ih =>
    have hnames : ∀ n ∈ names, n = upElement ∨ PathSets.isIdentifier n.toList = true :=
      fun n hn => hprims n (List.mem_cons_of_mem name hn)
    rw [descend] at h
    split at h
    · split at h
      · exact absurd h (by simp)
      · exact ih (fun n hn => hstart n (front.dropLast_subset hn)) hnames h
    · next hup =>
      refine ih (fun n hn => ?_) hnames h
      rcases List.mem_append.mp hn with hn | hn
      · exact hstart n hn
      · obtain rfl := List.mem_singleton.mp hn
        exact (hprims n (by simp)).resolve_left (by simpa using hup)

/-- A path that ends in a name leads to a prim. -/
theorem ne_nil_of_descend (hlast : prims.getLast?.any (· != upElement) = true)
    (h : descend front prims = some rest) : rest ≠ [] := by
  induction prims generalizing front with
  | nil => exact absurd hlast (by simp)
  | cons name names ih =>
    rw [descend] at h
    by_cases hnil : names = []
    · subst hnil
      have hname : name ≠ upElement := by simpa using hlast
      rw [if_neg (by simpa using hname), descend] at h
      obtain rfl := Option.some.inj h
      simp
    · have hlast' : names.getLast?.any (· != upElement) = true := by
        obtain ⟨next, more, rfl⟩ := List.exists_cons_of_ne_nil hnil
        rwa [List.getLast?_cons_cons] at hlast
      split at h
      · split at h
        · exact absurd h (by simp)
        · exact ih hlast' h
      · exact ih hlast' h

/-- What anchoring a path gives: itself, or the absolute path to which it leads. -/
theorem anchorAt_cases (h : p.anchorAt anchor = .ok q) :
    (p.anchor ≠ .relative ∧ q = p) ∨
      (p.anchor = .relative ∧ anchor.isAnchor = true ∧ ∃ prims,
        descend anchor.prims p.prims = some prims ∧ (p.isProperty = true → prims ≠ []) ∧
        q = { anchor := .absolute, prims, property := p.property }) := by
  rw [Path.anchorAt] at h
  split at h
  · next hrelative => exact Or.inl ⟨by simpa using hrelative, (Except.ok.inj h).symm⟩
  next hrelative =>
  split at h
  · exact absurd h (by simp)
  next hanchor =>
  split at h
  · exact absurd h (by simp)
  next prims hprims =>
  split at h
  · exact absurd h (by simp)
  next hproperty =>
  refine Or.inr ⟨by simpa using hrelative, by simpa using hanchor, prims, hprims, ?_,
    (Except.ok.inj h).symm⟩
  rintro hp rfl
  simp [hp] at hproperty

theorem WellFormed.names_of_isAnchor (h : anchor.WellFormed) (hanchor : anchor.isAnchor = true) :
    ∀ name ∈ anchor.prims, PathSets.isIdentifier name.toList = true := by
  have habsolute : anchor.anchor = .absolute := by
    simp only [isAnchor, isAbsolute, Bool.and_eq_true, beq_iff_eq] at hanchor
    exact hanchor.1
  exact Descends.isIdentifier (habsolute ▸ h.prims)

theorem WellFormed.anchorAt (hp : p.WellFormed) (hanchor : anchor.WellFormed)
    (h : p.anchorAt anchor = .ok q) : q.WellFormed := by
  obtain ⟨-, rfl⟩ | ⟨-, hkind, prims, hprims, hproperty, rfl⟩ := anchorAt_cases h
  · exact hp
  have hnames : ∀ name ∈ prims, PathSets.isIdentifier name.toList = true := by
    refine isIdentifier_of_descend (hanchor.names_of_isAnchor hkind) ?_ hprims
    obtain ⟨ups, names, heq, hnames, -⟩ := hp.prims
    intro name hname
    rw [heq, List.mem_append] at hname
    rcases hname with hname | hname
    · exact Or.inl (List.eq_of_mem_replicate hname)
    · exact Or.inr (hnames name hname)
  refine ⟨nofun, descends_of_isIdentifier hnames, ?_⟩
  intro name hname
  have hname' : p.property = some name := hname
  have hsome : p.isProperty = true := by simp [isProperty, hname']
  exact ⟨(hp.property name hname).1, takesProperty_of_isIdentifier (hproperty hsome) hnames⟩

/-- A relative path that takes a property still does when it is anchored, unless it is `.` and
anchored at the root. -/
theorem WellFormed.takesProperty_anchorAt_iff (hp : p.WellFormed) (hanchor : anchor.WellFormed)
    (hrelative : p.anchor = .relative) (hproperty : p.isProperty = false)
    (htakes : TakesProperty p.anchor p.prims) (h : p.anchorAt anchor = .ok q) :
    TakesProperty q.anchor q.prims ↔ (p.isHere = true → anchor.isRoot = false) := by
  have hnames := (hp.anchorAt hanchor h).prims
  obtain ⟨hno, -⟩ | ⟨-, hkind, prims, hprims, -, rfl⟩ := anchorAt_cases h
  · exact absurd hrelative hno
  have htakes' : TakesProperty .absolute prims ↔ prims ≠ [] := by
    refine ⟨?_, fun hne => takesProperty_of_isIdentifier hne hnames.isIdentifier⟩
    rintro hlast rfl
    simp [TakesProperty] at hlast
  rw [htakes']
  by_cases hnil : p.prims = []
  · -- The path is `.`, and the property comes to stand on `anchor`.
    have hhere : p.isHere = true := by simp [isHere, hrelative, hnil, hproperty]
    have hroot : anchor.isRoot = anchor.prims.isEmpty := by
      simp_all [isRoot, isAnchor]
    rw [hnil, descend, Option.some.injEq] at hprims
    simp [hhere, hroot, hprims]
  · have hlast := htakes.resolve_right fun h => hnil h.2
    exact iff_of_true (ne_nil_of_descend hlast hprims)
      fun hhere => absurd hhere (by simp [isHere, hnil])

/-! ### Moving -/

/-- Whether the path can be moved from below `old` to below `new`.  If the rest of it goes
up, `new` goes up and nothing else.  A property that comes to stand on `new` itself does
not stand on `..`. -/
def CanMove (p old new : Path) : Prop :=
  p.isWithin old = true → old.isProperty = false →
    ((p.prims.drop old.prims.length).head? = some upElement →
        new.anchor = .relative ∧ ∀ prim ∈ new.prims, prim = upElement) ∧
      (p.isProperty = true → p.prims.drop old.prims.length = [] →
        new.prims.getLast? ≠ some upElement)

instance (p old new : Path) : Decidable (p.CanMove old new) :=
  inferInstanceAs (Decidable (_ → _ → (_ → _ ∧ ∀ _ ∈ _, _) ∧ (_ → _ → _ ≠ _)))

/-- What moving a path gives: itself, `new`, or `new` and the rest of the path. -/
theorem rebase_cases (p old new : Path) :
    p.rebase old new = p ∨
      (new.isEmpty = false ∧ p.isWithin old = true ∧ old.isProperty = true ∧
        p.rebase old new = new) ∨
      (new.isEmpty = false ∧ p.isWithin old = true ∧ old.isProperty = false ∧
        let rest := p.prims.drop old.prims.length
        (new.isProperty = true → rest = [] ∧ p.isProperty = false) ∧
          (p.isProperty = true → rest = [] → new.prims ≠ []) ∧
          p.rebase old new =
            { anchor := new.anchor, prims := new.prims ++ rest
              property := p.property.or new.property }) := by
  rw [rebase]
  split
  · exact Or.inl rfl
  next hwithin =>
  rw [Bool.or_eq_true, not_or, Bool.not_eq_true, Bool.not_eq_true', Bool.not_eq_false] at hwithin
  split
  · next hold => exact Or.inr (Or.inl ⟨hwithin.1, hwithin.2, hold, rfl⟩)
  next hold =>
  dsimp only
  split
  · exact Or.inl rfl
  next htail =>
  split
  · exact Or.inl rfl
  next hproperty =>
  refine Or.inr (Or.inr ⟨hwithin.1, hwithin.2, by simpa using hold, ?_, ?_, rfl⟩)
  · intro hnew
    simpa [hnew] using htail
  · rintro hp hrest hnil
    simp [hp, hrest, hnil] at hproperty

theorem WellFormed.rebase (hp : p.WellFormed) (hnew : new.WellFormed) (h : p.CanMove old new) :
    (p.rebase old new).WellFormed := by
  obtain heq | ⟨-, -, -, heq⟩ | ⟨hempty, hwithin, hold, htail, hprims, heq⟩ :=
    rebase_cases p old new
  · rwa [heq]
  · rwa [heq]
  obtain ⟨hup, hlast⟩ := h hwithin hold
  rw [heq]
  refine ⟨?_, hnew.prims.append_prims (hp.prims.drop _) hup, ?_⟩
  · intro hnone
    have hnone' : new.anchor = .empty := hnone
    exact absurd hempty (by simp [isEmpty, hnone'])
  intro name hname
  rw [Option.mem_def, Option.or_eq_some_iff] at hname
  rcases hname with hname | ⟨hnone, hname⟩
  · obtain ⟨hvalid, htakes⟩ := hp.property name hname
    have hproperty : p.isProperty = true := by simp [isProperty, hname]
    refine ⟨hvalid, ?_⟩
    by_cases hrest : p.prims.drop old.prims.length = []
    · -- The property comes to stand on `new`.
      left
      have hne := hprims hproperty hrest
      dsimp only
      rw [hrest, List.append_nil]
      rw [List.getLast?_eq_some_getLast hne] at hlast ⊢
      simpa using hlast hproperty hrest
    · left
      have hshort : ¬ p.prims.length ≤ old.prims.length := by
        rwa [List.drop_eq_nil_iff] at hrest
      dsimp only
      rw [List.getLast?_append_of_ne_nil _ hrest, List.getLast?_drop, if_neg hshort]
      rcases htakes with htakes | ⟨-, hnil⟩
      · exact htakes
      · simp [hnil] at hshort
  · obtain ⟨hvalid, htakes⟩ := hnew.property name hname
    have hproperty : new.isProperty = true := by simp [isProperty, hname]
    refine ⟨hvalid, ?_⟩
    dsimp only
    rwa [(htail hproperty).1, List.append_nil]

/-- Prims that go up behind others: the others go up too. -/
theorem Descends.of_append_prims (h : Descends start (front ++ rest))
    (hup : rest.head? = some upElement) :
    start = .relative ∧ ∀ prim ∈ front, prim = upElement := by
  obtain ⟨ups, names, heq, hnames, hups⟩ := h
  have hnot : upElement ∉ names := fun hmem =>
    ne_upElement_of_isIdentifier (hnames _ hmem) rfl
  obtain ⟨more, hreplicate, hrest⟩ | ⟨more, -, hmore⟩ := List.append_eq_append_iff.mp heq
  · have hne : more ≠ [] := by
      rintro rfl
      rw [List.nil_append] at hrest
      exact hnot (hrest ▸ List.mem_of_mem_head? hup)
    refine ⟨hups ?_, fun prim hprim => ?_⟩
    · rintro rfl
      simp [hne] at hreplicate
    · exact List.eq_of_mem_replicate (hreplicate ▸ List.mem_append_left more hprim)
  · exact absurd (hmore ▸ List.mem_append_right more (List.mem_of_mem_head? hup)) hnot

/-- Moving gives a path that can be read back exactly if it leaves the path as it is or the
path can be moved. -/
theorem wellFormed_rebase_iff (hp : p.WellFormed) (hnew : new.WellFormed) :
    (p.rebase old new).WellFormed ↔ p.rebase old new = p ∨ p.CanMove old new := by
  constructor
  · intro hmoved
    obtain heq | ⟨-, -, hold, -⟩ | ⟨-, -, -, -, -, heq⟩ := rebase_cases p old new
    · exact Or.inl heq
    · exact Or.inr fun _ hopen => absurd hold (by simp [hopen])
    rw [heq] at hmoved
    refine Or.inr fun _ _ => ⟨hmoved.prims.of_append_prims, fun hproperty hrest hlast => ?_⟩
    -- The property of the path comes to stand on the `..` that `new` ends in.
    obtain ⟨name, hname⟩ := Option.isSome_iff_exists.mp hproperty
    have htakes := (hmoved.property name (by simp [hname])).2
    dsimp only at htakes
    rw [hrest, List.append_nil] at htakes
    rcases htakes with htakes | ⟨-, hnil⟩
    · simp [hlast] at htakes
    · simp [hnil] at hlast
  · rintro (heq | hcan)
    · rwa [heq]
    · exact hp.rebase hnew hcan

/-! ### Elements -/

/-- What a path goes through: a prim, or the property it ends in. -/
inductive Element where
  | prim (name : String)
  | property (name : String)
  deriving DecidableEq, Repr

/-- The elements of a path in order. -/
def elements (p : Path) : List Element :=
  p.prims.map .prim ++ p.property.toList.map .property

/-- Moving leaves a path as it is, or gives `new` and behind it exactly the elements that the
path has behind `old`. -/
theorem elements_rebase (p old new : Path) :
    p.rebase old new = p ∨
      p.isWithin old = true ∧ (p.rebase old new).anchor = new.anchor ∧
        ∃ rest, p.elements = old.elements ++ rest ∧
          (p.rebase old new).elements = new.elements ++ rest := by
  obtain heq | ⟨-, hwithin, hold, heq⟩ | ⟨-, hwithin, hold, htail, -, heq⟩ :=
    rebase_cases p old new
  · exact Or.inl heq
  · refine Or.inr ⟨hwithin, by rw [heq], [], ?_, by rw [heq, List.append_nil]⟩
    obtain rfl | ⟨hopen, -⟩ := isWithin_cases hwithin
    · exact (List.append_nil _).symm
    · exact absurd hold (by simp [hopen])
  · obtain ⟨rest, property, rfl⟩ := exists_below hold hwithin
    have hdrop : (old.below rest property).prims.drop old.prims.length = rest := List.drop_left
    have hnone : old.property = none := by simpa [isProperty] using hold
    rw [hdrop] at htail heq
    refine Or.inr ⟨hwithin, by rw [heq], rest.map .prim ++ property.toList.map .property, ?_, ?_⟩
    · simp [elements, below, hnone]
    · rw [heq]
      cases hnew : new.property with
      | none => simp [elements, below, hnew]
      | some name =>
        obtain ⟨rfl, hproperty⟩ := htail (by simp [isProperty, hnew])
        obtain rfl : property = none := by simpa [isProperty, below] using hproperty
        simp [elements, below, hnew]

end Path

/-! ## Patterns -/

namespace Pattern

variable {p q : Pattern} {old new anchor base : Path} {isProperty : Bool}
  {components : List Component}

/-- Whether all that follows the base is a property. -/
def IsLoneProperty (p : Pattern) : Prop :=
  p.isProperty = true ∧ p.components.length = 1

instance (p : Pattern) : Decidable p.IsLoneProperty :=
  inferInstanceAs (Decidable (_ ∧ _))

/-- Components continue any base.  Only a property that comes first depends on it. -/
theorem Continues.setBase (h : Continues isProperty q components)
    (hbase : isProperty = true → q.components.length + components.length = 1 →
      Path.TakesProperty base.anchor base.prims) :
    Continues isProperty { q with base } components := by
  induction h with
  | done hlast => exact .done hlast
  | @stretch q components hstretch _ ih =>
    refine .stretch hstretch (ih fun hproperty hlength => hbase hproperty ?_)
    simp only [add, List.length_append, List.length_cons, List.length_nil] at hlength ⊢
    omega
  | @element q c components hc hplain hlast _ ih =>
    refine .element hc hplain hlast (ih fun hproperty hlength => hbase hproperty ?_)
    simp only [add, List.length_append, List.length_cons, List.length_nil] at hlength ⊢
    omega
  | @property q c hproperty hc hplain hq =>
    refine .property hproperty hc hplain ⟨hq.isProperty, hq.stretch, fun hnil => ?_⟩
    have hnil' : q.components = [] := hnil
    exact hbase hproperty (by simp [hnil'])

/-- A property right behind the base stands on what can have one. -/
theorem WellFormed.takesProperty (hp : p.WellFormed) (hlone : p.IsLoneProperty) :
    p.base.isProperty = false ∧ Path.TakesProperty p.base.anchor p.base.prims := by
  obtain ⟨hproperty, hlength⟩ := hlone
  obtain ⟨c, hc⟩ := List.length_eq_one_iff.mp hlength
  have hbase : p.base.isProperty = false := by
    by_contra hno
    have hnil := (hp.property (by simpa using hno)).1
    simp [hnil] at hlength
  have hcontinues := hp.components hbase
  rw [hproperty, hc] at hcontinues
  refine ⟨hbase, ?_⟩
  cases hcontinues with
  | stretch _ h => exact absurd rfl h.ne_nil
  | element _ _ hlast _ => exact absurd rfl (hlast rfl)
  | property _ _ _ htakes => exact htakes.base rfl

/-- A pattern whose parts can be written and follow one another, whatever the base is. -/
structure Assembled (p : Pattern) : Prop where
  base : p.base.WellFormed
  property : p.base.isProperty = true → p.components = [] ∧ p.isProperty = true
  components : p.base.isProperty = false → Continues p.isProperty { base := .here } p.components

theorem takesProperty_here : Path.TakesProperty Path.here.anchor Path.here.prims :=
  Or.inr ⟨rfl, rfl⟩

theorem WellFormed.assembled (hp : p.WellFormed) : p.Assembled where
  base := hp.base
  property := hp.property
  components hbase := (hp.components hbase).setBase fun _ _ => takesProperty_here

/-- What is left to ask of an assembled pattern: a property right behind the base needs a
base that takes it. -/
theorem Assembled.wellFormed_iff (hp : p.Assembled) (hbase : p.base.isEmpty = false) :
    p.WellFormed ↔ (p.IsLoneProperty → Path.TakesProperty p.base.anchor p.base.prims) := by
  refine ⟨fun hwell hlone => (hwell.takesProperty hlone).2, fun htakes => ?_⟩
  refine ⟨hp.base, hbase, hp.property, fun hno => (hp.components hno).setBase ?_⟩
  exact fun hproperty hlength => htakes ⟨hproperty, by simpa using hlength⟩

theorem Assembled.setBase (hp : p.Assembled) (hbase : base.WellFormed) :
    (p.setBase base).Assembled := by
  unfold Pattern.setBase
  split
  · next hproperty => exact ⟨hbase, fun _ => ⟨rfl, rfl⟩, fun hno => by simp_all⟩
  next hproperty =>
  split
  · exact ⟨hbase, fun hyes => absurd hyes hproperty, fun _ => .done rfl⟩
  next hne =>
  have hold : p.base.isProperty = false := by
    by_contra hyes
    have hnil := (hp.property (by simpa using hyes)).1
    exact hne (by simp [hnil])
  exact ⟨hbase, fun hyes => absurd hyes hproperty, fun _ => hp.components hold⟩

@[simp] theorem base_setBase (p : Pattern) (base : Path) : (p.setBase base).base = base := by
  unfold setBase
  split
  · rfl
  · split <;> rfl

/-- A well-formed pattern keeps its base. -/
theorem WellFormed.setBase_base (hp : p.WellFormed) : p.setBase p.base = p := by
  obtain ⟨base, components, isProperty⟩ := p
  rw [Pattern.setBase]
  split
  · next hproperty =>
    obtain ⟨rfl, rfl⟩ : components = [] ∧ isProperty = true := hp.property hproperty
    rfl
  next hproperty =>
  split
  · next hempty =>
    obtain rfl := List.isEmpty_iff.mp hempty
    have hcontinues := hp.components (by simpa using hproperty)
    cases isProperty with
    | false => rfl
    | true => exact absurd rfl hcontinues.ne_nil
  · rfl

/-- A lone property stays one on a base that is no property. -/
theorem isLoneProperty_setBase_iff :
    (p.setBase base).IsLoneProperty ↔ p.IsLoneProperty ∧ base.isProperty = false := by
  unfold Pattern.setBase
  split
  · next hproperty => simp [IsLoneProperty, hproperty]
  next hproperty =>
  split
  · next hempty => simp_all [IsLoneProperty]
  · exact ⟨fun h => ⟨h, by simpa using hproperty⟩, fun h => h.1⟩

/-- A base has to take the property that comes to stand on it. -/
theorem WellFormed.setBase_iff (hp : p.WellFormed) (hbase : base.WellFormed)
    (hempty : base.isEmpty = false) :
    (p.setBase base).WellFormed ↔
      (p.IsLoneProperty → base.isProperty = false →
        Path.TakesProperty base.anchor base.prims) := by
  have hempty' : (p.setBase base).base.isEmpty = false := by rwa [base_setBase]
  rw [(hp.assembled.setBase hbase).wellFormed_iff hempty', isLoneProperty_setBase_iff,
    base_setBase, and_imp]

/-- Whether the pattern can be anchored: a property of `.` does not become one of the
root. -/
def CanAnchor (p : Pattern) (anchor : Path) : Prop :=
  p.IsLoneProperty → p.base.isHere = true → anchor.isRoot = false

instance (p : Pattern) (anchor : Path) : Decidable (p.CanAnchor anchor) :=
  inferInstanceAs (Decidable (_ → _ → _))

/-- An anchored pattern can be read back exactly if the pattern can be anchored. -/
theorem WellFormed.anchorAt_iff (hp : p.WellFormed) (hanchor : anchor.WellFormed)
    (h : p.anchorAt anchor = .ok q) : q.WellFormed ↔ p.CanAnchor anchor := by
  unfold Pattern.anchorAt at h
  split at h
  · next habsolute =>
    obtain rfl := Except.ok.inj h
    refine iff_of_true hp fun _ hhere => ?_
    simp_all [Pattern.isAbsolute, Path.isAbsolute, Path.isHere]
  next habsolute =>
  obtain ⟨base, hbase, h⟩ := bind_eq_ok.mp h
  obtain rfl := Except.ok.inj h
  have hrelative : p.base.anchor = .relative := by
    cases hkind : p.base.anchor with
    | relative => rfl
    | absolute => simp [isAbsolute, Path.isAbsolute, hkind] at habsolute
    | empty => exact absurd hp.notEmpty (by simp [Path.isEmpty, hkind])
  have hopen : base.isProperty = p.base.isProperty ∧ base.isEmpty = false := by
    obtain ⟨hno, -⟩ | ⟨-, -, prims, -, -, rfl⟩ := Path.anchorAt_cases hbase
    · exact absurd hrelative hno
    · exact ⟨rfl, rfl⟩
  rw [hp.setBase_iff (hp.base.anchorAt hanchor hbase) hopen.2]
  refine forall_congr' fun hlone => ?_
  obtain ⟨hproperty, htakes⟩ := hp.takesProperty hlone
  rw [hopen.1, imp_iff_right hproperty]
  exact hp.base.takesProperty_anchorAt_iff hanchor hrelative hproperty htakes hbase

/-- Whether the pattern can be moved: its base can, and a property behind it then stands
on what can have one. -/
def CanMove (p : Pattern) (old new : Path) : Prop :=
  p.base.CanMove old new ∧
    (p.IsLoneProperty → (p.base.rebase old new).isProperty = false →
      Path.TakesProperty (p.base.rebase old new).anchor (p.base.rebase old new).prims)

instance (p : Pattern) (old new : Path) : Decidable (p.CanMove old new) :=
  inferInstanceAs (Decidable (_ ∧ (_ → _ → (_ ∨ _))))

/-- A moved pattern can be read back exactly if it stays what it is or the pattern can be
moved. -/
theorem WellFormed.rebase_iff (hp : p.WellFormed) (hnew : new.WellFormed) :
    (p.rebase old new).WellFormed ↔ p.rebase old new = p ∨ p.CanMove old new := by
  have hempty : (p.base.rebase old new).isEmpty = false := by
    obtain heq | ⟨hempty, -, -, heq⟩ | ⟨hempty, -, -, -, -, heq⟩ :=
      Path.rebase_cases p.base old new <;> rw [heq]
    · exact hp.notEmpty
    · exact hempty
    · exact hempty
  rw [Pattern.rebase]
  split
  · exact iff_of_true hp (Or.inl rfl)
  constructor
  · intro hmoved
    have hbase := hmoved.base
    rw [base_setBase] at hbase
    rcases (Path.wellFormed_rebase_iff hp.base hnew).mp hbase with hsame | hcan
    · exact Or.inl (by rw [hsame, hp.setBase_base])
    · exact Or.inr ⟨hcan, (hp.setBase_iff hbase hempty).mp hmoved⟩
  · rintro (heq | ⟨hcan, htakes⟩)
    · rwa [heq]
    · exact (hp.setBase_iff (hp.base.rebase hnew hcan) hempty).mpr htakes

end Pattern

end PathSets
