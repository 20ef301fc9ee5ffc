import PathSets.Proofs.PathRoundTrip
import PathSets.Proofs.RelocatedMatching

/-!
# Where constancy is exact

A constant verdict holds below the path as well.  For a pattern without predicates the
converse is true at the root and at prims: where everything below has the verdict of the
path, the verdict is constant (`Evaluator.constant_matchPath_iff`).

* The steps of such a pattern ask for a kind and for a name (`Step.Named`).  If there is a
  name for each of them, they can be taken to the end from anywhere
  (`Automaton.exists_finishes`), and so from every live state (`exists_canFinish`).
* So where the verdict is not constant but false, there is a match further down: below the
  base, if the path only leads to it, and otherwise below the path.
* Where it is not constant but true, no stretch comes last.  The last step took a prim, so a
  property of that prim does not match.
-/

namespace PathSets

/-! ## Names to go on with -/

/-- Whether this is a name of the kind: of a property, or of a prim. -/
def IsName (ofProperty : Bool) (name : String) : Prop :=
  if ofProperty then isPropertyName name.toList = true else isIdentifier name.toList = true

/-- Whether the component, if it is a glob, fits some name of its kind. -/
def Component.FitsName (library : Library) (endsProperty : Bool) : Component → Prop
  | glob shape _ => ∃ name, IsName endsProperty name ∧ Glob.Fits library shape name
  | _ => True

/-- Whether each glob fits some name of its kind: of a property if it is the last component of
a property pattern, and otherwise of a prim. -/
def GlobsFit (library : Library) (isProperty : Bool) : List Component → Prop
  | [] => True
  | c :: components =>
    c.FitsName library (isProperty && components.isEmpty) ∧ GlobsFit library isProperty components

namespace Path

variable {p q top : Path} {rest : List String} {property : Option String} {name : String}

/-- Whether these are prims and perhaps a property by which a path can go on. -/
def AreNames (rest : List String) (property : Option String) : Prop :=
  (∀ name ∈ rest, IsName false name) ∧ ∀ name ∈ property, IsName true name

theorem WellFormed.below (htop : top.WellFormed) (hempty : top.isEmpty = false)
    (hnames : AreNames rest property)
    (hproperty : property.isSome = true → rest = [] → TakesProperty top.anchor top.prims) :
    (top.below rest property).WellFormed where
  empty hanchor := by
    have hanchor' : top.anchor = .empty := hanchor
    simp [isEmpty, hanchor'] at hempty
  prims := htop.prims.append_names hnames.1
  property name hname := by
    refine ⟨hnames.2 name hname, ?_⟩
    by_cases hrest : rest = []
    · subst hrest
      have htakes := hproperty (Option.isSome_iff_exists.mpr ⟨name, hname⟩) rfl
      simpa [Path.below] using htakes
    · have htakes : TakesProperty top.anchor rest := takesProperty_of_isIdentifier hrest hnames.1
      left
      rcases htakes with hlast | ⟨-, hnil⟩
      · rw [Path.below, List.getLast?_append_of_ne_nil _ hrest]
        exact hlast
      · exact absurd hnil hrest

end Path

/-! ## Steps without predicates -/

namespace Step

variable {library : Library} {s : Step} {afterStretch endsProperty : Bool} {c : Component}
  {name : String} {top : Path}

/-- A step that asks for nothing but a kind and a name, and there is such a name. -/
structure Named (endsProperty : Bool) (s : Step) : Prop where
  kind : s.kind = if endsProperty then .property else .prim
  notAny : s.name.isAny = false
  condition : s.condition = none
  exists_name : ∃ name, IsName endsProperty name ∧ s.name.accepts name = true

theorem Named.exists_prim (h : s.Named false) :
    ∃ name, IsName false name ∧ ∀ top : Path, s.accepts (top.below [name] none) = true := by
  obtain ⟨name, hname, haccepts⟩ := h.exists_name
  refine ⟨name, hname, fun top => ?_⟩
  have hup : name ≠ upElement := Path.ne_upElement_of_isIdentifier hname
  simp [accepts, allows, h.kind, h.condition, KindTest.accepts, Path.isPrim, Path.isProperty,
    Path.below, Path.name, hup, haccepts]

theorem Named.exists_property (h : s.Named true) :
    ∃ name, IsName true name ∧ ∀ top : Path, s.accepts (top.below [] (some name)) = true := by
  obtain ⟨name, hname, haccepts⟩ := h.exists_name
  refine ⟨name, hname, fun top => ?_⟩
  simp [accepts, allows, h.kind, h.condition, KindTest.accepts, Path.isProperty, Path.below,
    Path.name, haccepts]

/-- No such step takes both a prim and a property. -/
theorem Named.isProperty_of_accepts {p q : Path} (h : s.Named endsProperty)
    (hp : s.accepts p = true) (hq : s.accepts q = true) (hprim : p.isPrim = true) :
    q.isProperty = false := by
  simp only [accepts, Bool.and_eq_true, h.kind] at hp hq
  cases endsProperty with
  | false =>
    have hqPrim : q.isPrim = true := hq.1.1
    simp only [Path.isPrim, Bool.and_eq_true, Bool.not_eq_true'] at hqPrim
    exact hqPrim.1
  | true =>
    have hpProperty : p.isProperty = true := hp.1.1
    simp [Path.isPrim, hpProperty] at hprim

/-- The step for a name or glob without a predicate. -/
theorem exists_ofComponent (hc : c.WellFormed endsProperty) (hplain : c.condition? = none)
    (hglob : c.FitsName library endsProperty) (afterStretch : Bool) :
    ∃ s, ofComponent library afterStretch endsProperty c = .ok s ∧ s.Named endsProperty := by
  cases c with
  | stretch => exact hc.shape.elim
  | bare condition => exact absurd hplain (by simp [Component.condition?])
  | named text condition =>
    obtain rfl : condition = none := hplain
    exact ⟨_, rfl, rfl, rfl, rfl, text, hc.shape, by simp [NameTest.accepts]⟩
  | glob shape condition =>
    obtain rfl : condition = none := hplain
    obtain ⟨name, hname, matcher, hmatcher, haccepts⟩ := hglob
    refine ⟨⟨afterStretch, if endsProperty then .property else .prim, .fits matcher, none⟩,
      ?_, rfl, rfl, rfl, name, hname, haccepts⟩
    simp only [ofComponent, nameTest, hmatcher]
    rfl

end Step

namespace Automaton

variable {library : Library} {isProperty trailing b : Bool} {last : Option Path}
  {components : List Component} {steps : List Step} {positions : List Bool}
  {elements : List Path} {a : Automaton} {p : Path}

/-- Whether all steps are named, and the last one for a property if `isProperty` is set. -/
def AllNamed (isProperty : Bool) : List Step → Prop
  | [] => True
  | s :: steps => s.Named (isProperty && steps.isEmpty) ∧ AllNamed isProperty steps

theorem AllNamed.of_mem {s : Step} (h : AllNamed isProperty steps) (hs : s ∈ steps) :
    ∃ endsProperty, s.Named endsProperty := by
  induction steps with
  | nil => exact absurd hs List.not_mem_nil
  | cons first steps ih =>
    rcases List.mem_cons.mp hs with rfl | hs
    · exact ⟨_, h.1⟩
    · exact ih h.2 hs

/-- Components without predicates become named steps, if their globs fit some name.  If a
property is the only one of them, it is the only component. -/
theorem exists_stepsOf {q : Pattern} (h : Pattern.Continues isProperty q components)
    (hq : q.isProperty = false) (hplain : ∀ c ∈ components, c.condition? = none)
    (hglobs : GlobsFit library isProperty components) (b : Bool) :
    ∃ steps trailing, stepsOf library isProperty b components = .ok (steps, trailing) ∧
      AllNamed isProperty steps ∧ (isProperty = true → steps ≠ [] ∧
        (steps.length = 1 → q.hasTrailingStretch = false ∧ components.length = 1)) := by
  induction h generalizing b with
  | done hlast => exact ⟨[], b, rfl, trivial, fun h => absurd h (by simp [hlast])⟩
  | @stretch q components _ _ ih =>
    obtain ⟨steps, trailing, hsteps, hnamed, hlast⟩ :=
      ih hq (fun c hc => hplain c (List.mem_cons_of_mem _ hc)) hglobs.2 true
    refine ⟨steps, trailing, hsteps, hnamed, fun hproperty => ⟨(hlast hproperty).1, fun hone => ?_⟩⟩
    -- A property does not come directly after a stretch.
    have hno := ((hlast hproperty).2 hone).1
    rw [Pattern.hasTrailingStretch_add hq] at hno
    exact absurd hno (by simp [Component.isStretch])
  | @element q c components hc _ hlast _ ih =>
    obtain ⟨steps, trailing, hsteps, hnamed, hlast'⟩ :=
      ih hq (fun c hc => hplain c (List.mem_cons_of_mem _ hc)) hglobs.2 false
    have hends : (isProperty && components.isEmpty) = false := by
      cases isProperty with
      | false => rfl
      | true => simpa using hlast rfl
    have hends' : (isProperty && steps.isEmpty) = false := by
      cases isProperty with
      | false => rfl
      | true => simpa using (hlast' rfl).1
    obtain ⟨s, hs, hsNamed⟩ :=
      Step.exists_ofComponent hc (hplain c (by simp)) (hends ▸ hglobs.1) b
    refine ⟨s :: steps, trailing, ?_, ⟨hends'.symm ▸ hsNamed, hnamed⟩, fun hproperty => ?_⟩
    · rw [stepsOf_cons hc.isStretch, hends, hs, ok_bind, hsteps]
      rfl
    · exact ⟨by simp, fun hone => absurd hone (by simp [(hlast' hproperty).1])⟩
  | @property q c hproperty hc _ htakes =>
    subst hproperty
    obtain ⟨s, hs, hsNamed⟩ := Step.exists_ofComponent hc (hplain c (by simp)) hglobs.1 b
    refine ⟨[s], false, ?_, ⟨hsNamed, trivial⟩, fun _ => ⟨by simp, fun _ => ⟨htakes.stretch, rfl⟩⟩⟩
    rw [stepsOf_cons hc.isStretch]
    show (Step.ofComponent library b true c >>= _) = _
    rw [hs, ok_bind]
    rfl

/-! ## Matches further down -/

/-- From any path named steps can be taken to the end.  A property comes first only if it is
the only step. -/
theorem exists_finishes (h : AllNamed isProperty steps) (trailing : Bool) (last : Option Path)
    (top : Path) :
    ∃ rest property, Path.AreNames rest property ∧
      (property.isSome = true → rest = [] → isProperty = true ∧ steps.length = 1) ∧
      Finishes trailing last steps (top.elementsBelow rest property) := by
  induction steps generalizing top last with
  | nil => exact ⟨[], none, ⟨nofun, nofun⟩, nofun, .done⟩
  | cons s steps ih =>
    obtain ⟨hs, hnamed⟩ := h
    cases hends : isProperty && steps.isEmpty with
    | true =>
      rw [hends] at hs
      obtain ⟨name, hname, haccepts⟩ := hs.exists_property
      obtain ⟨hproperty, hnil⟩ := Bool.and_eq_true_iff.mp hends
      obtain rfl := List.isEmpty_iff.mp hnil
      refine ⟨[], some name, ⟨nofun, ?_⟩, fun _ _ => ⟨hproperty, rfl⟩, .take (haccepts top) .done⟩
      intro x hx
      rwa [← Option.some.inj hx]
    | false =>
      rw [hends] at hs
      obtain ⟨name, hname, haccepts⟩ := hs.exists_prim
      obtain ⟨rest, property, hrest, -, hfinishes⟩ :=
        ih hnamed (some (top.below [name] none)) (top.below [name] none)
      refine ⟨name :: rest, property, ⟨List.forall_mem_cons.mpr ⟨hname, hrest.1⟩, hrest.2⟩,
        nofun, ?_⟩
      rw [Path.elementsBelow_cons]
      exact .take (haccepts top) hfinishes

/-- From any of the positions of a live state the steps that are left can be taken. -/
theorem exists_canFinish (h : AllNamed isProperty steps)
    (hlen : positions.length = steps.length + 1) (hany : positions.any id = true)
    (trailing : Bool) (last : Option Path) (top : Path) :
    ∃ rest property, Path.AreNames rest property ∧
      CanFinish trailing last steps positions (top.elementsBelow rest property) := by
  induction steps generalizing positions with
  | nil =>
    obtain ⟨here, rfl⟩ := List.length_eq_one_iff.mp hlen
    exact ⟨[], none, ⟨nofun, nofun⟩, by simpa using hany, .done⟩
  | cons s steps ih =>
    obtain ⟨here, positions, rfl⟩ := List.exists_cons_of_length_eq_add_one hlen
    cases here with
    | true =>
      obtain ⟨rest, property, hnames, -, hfinishes⟩ := exists_finishes h trailing last top
      exact ⟨rest, property, hnames, Or.inl ⟨rfl, hfinishes⟩⟩
    | false =>
      obtain ⟨rest, property, hnames, hcan⟩ := ih h.2 (by simpa using hlen) (by simpa using hany)
      exact ⟨rest, property, hnames, Or.inr hcan⟩

/-! ## States on the way -/

/-- A live state has a position. -/
def Alive : State → Prop
  | .live positions => positions.any id = true
  | _ => True

theorem alive_start (a : Automaton) : Alive a.start := by
  unfold start
  split
  · simp [Alive, initial]
  · split <;> trivial

theorem alive_advance (a : Automaton) (p : Path) (state : State) : Alive (a.advance p state) := by
  cases state with
  | dead => trivial
  | pending =>
    simp only [advance]
    split
    · cases a.steps <;> simp [Alive, initial, close]
    · split <;> trivial
  | live positions =>
    simp only [advance]
    split
    · next hany => exact hany
    · trivial

theorem alive_advanceAll {state : State} (h : Alive state) (elements : List Path) :
    Alive (a.advanceAll elements state) := by
  induction elements generalizing state with
  | nil => exact h
  | cons p elements ih => exact ih (alive_advance a p state)

/-- The state of an automaton at a path. -/
def stateAt (a : Automaton) (p : Path) : State :=
  a.advanceAll p.lineage a.start

/-- What an automaton says about a path. -/
def verdictAt (a : Automaton) (p : Path) : Verdict :=
  a.verdict (a.stateAt p)

/-- Whether an automaton gives some path below `p` this answer.  The path can be read back if
`p` can. -/
def AnswersBelow (a : Automaton) (p : Path) (matched : Bool) : Prop :=
  ∃ d : Path, (p.WellFormed → d.WellFormed) ∧ d.isWithin p = true ∧
    (a.verdictAt d).matched = matched

/-- A path at which an automaton is pending leads to its base. -/
theorem isWithin_of_pending (hp : p.isAbsolute = true) (h : a.stateAt p = .pending) :
    a.base.isWithin p = true := by
  rw [stateAt] at h
  by_cases hroot : p.isRoot = true
  · obtain ⟨-, hwithin, hnil⟩ := Path.of_isRoot hroot
    rw [hnil] at h
    refine hwithin _ ?_
    by_contra hno
    have hbase : a.base.isRoot = false := by
      simp only [Path.isRoot, Bool.and_eq_false_iff]
      exact Or.inl (Or.inl (by simpa using hno))
    have hdead : a.start = .dead := by simp [start, hbase, hno]
    exact absurd (hdead.symm.trans h) (by simp)
  · rw [Path.lineage_eq_concat (Path.elementCount_ne_zero hp hroot), advanceAll_append] at h
    have hlast : a.advance p (a.advanceAll p.lineage.dropLast a.start) = .pending := h
    cases hstate : a.advanceAll p.lineage.dropLast a.start with
    | dead => simp [hstate, advance] at hlast
    | live positions =>
      simp only [hstate, advance] at hlast
      split at hlast <;> exact absurd hlast (by simp)
    | pending =>
      simp only [hstate, advance] at hlast
      split at hlast
      · exact absurd hlast (by simp)
      · split at hlast
        · assumption
        · exact absurd hlast (by simp)

/-! ## Constancy -/

/-- The automaton of a pattern without predicates in which each component has a name. -/
structure Plain (a : Automaton) (isProperty : Bool) : Prop where
  base : a.base.WellFormed
  absolute : a.base.isAbsolute = true
  baseProperty : a.base.isProperty = true → a.steps = []
  named : AllNamed isProperty a.steps
  lone : isProperty = true → a.steps.length = 1 →
    Path.TakesProperty a.base.anchor a.base.prims

/-- Something below the base is matched. -/
theorem Plain.exists_matched (h : a.Plain isProperty) :
    ∃ d : Path, d.WellFormed ∧ d.isWithin a.base = true ∧ (a.verdictAt d).matched = true := by
  have hempty := Path.isEmpty_of_isAbsolute h.absolute
  cases hproperty : a.base.isProperty with
  | true =>
    -- The base is all that there is.
    have hself := Path.isWithin_self hempty
    refine ⟨a.base, h.base, hself, (matched_iff_finishes h.absolute).mpr ⟨h.absolute, hself, ?_⟩⟩
    rw [h.baseProperty hproperty, ← Path.length_lineage, List.drop_length]
    exact .done
  | false =>
    obtain ⟨rest, property, hnames, hlone, hfinishes⟩ :=
      exists_finishes h.named a.trailing a.base.lineage.getLast? a.base
    have hwithin : (a.base.below rest property).isWithin a.base = true :=
      Path.isWithin_below hempty hproperty
    have habsolute : (a.base.below rest property).isAbsolute = true := h.absolute
    refine ⟨a.base.below rest property, ?_, hwithin,
      (matched_iff_finishes habsolute).mpr ⟨h.absolute, hwithin, ?_⟩⟩
    · refine h.base.below hempty hnames fun hsome hrest => ?_
      obtain ⟨hisProperty, hone⟩ := hlone hsome hrest
      exact h.lone hisProperty hone
    · rwa [Path.lineage_below hproperty, ← Path.length_lineage, List.drop_left]

/-- Below a prim with a live state something is matched. -/
theorem Plain.exists_matched_below (h : a.Plain isProperty) (hp : p.IsPrimPath)
    (hlive : a.stateAt p = .live positions) :
    a.AnswersBelow p true := by
  have hfits : a.Fits (a.stateAt p) := fits_advanceAll (fits_start a) _
  have halive : Alive (a.stateAt p) := alive_advanceAll (alive_start a) _
  rw [hlive] at hfits halive
  obtain ⟨rest, property, hnames, hcan⟩ :=
    exists_canFinish h.named hfits halive a.trailing none p
  refine ⟨p.below rest property, fun hwell => ?_,
    Path.isWithin_below hp.isEmpty hp.isProperty, ?_⟩
  · exact hwell.below hp.isEmpty hnames fun _ _ => hp.takesProperty
  · rw [verdictAt, stateAt, Path.lineage_below hp.isProperty, advanceAll_append]
    show (a.verdict (a.advanceAll _ (a.stateAt p))).matched = true
    rw [hlive, matched_advanceAll_live hfits closed_none]
    exact hcan

/-- Where no stretch comes last, the last step takes the last element. -/
theorem accepts_of_finishes (h : AllNamed isProperty steps)
    (hfinishes : Finishes false last steps elements) :
    (steps = [] → elements = []) ∧
      ∀ s ∈ steps.getLast?, ∃ p ∈ elements.getLast?, s.accepts p = true := by
  induction hfinishes with
  | done => exact ⟨fun _ => rfl, nofun⟩
  | trail htrailing _ => exact absurd htrailing (by simp)
  | @stay _ s steps p elements _ _ ih =>
    refine ⟨nofun, fun lastStep hlast => ?_⟩
    obtain ⟨q, hq, haccepts⟩ := (ih h).2 lastStep hlast
    have hne : elements ≠ [] := List.ne_nil_of_mem (List.mem_of_getLast? hq)
    exact ⟨q, by rwa [List.getLast?_cons_of_ne_nil hne], haccepts⟩
  | @take _ s steps p elements htakes _ ih =>
    refine ⟨nofun, fun lastStep hlast => ?_⟩
    obtain ⟨hnil, hrest⟩ := ih h.2
    by_cases hsteps : steps = []
    · obtain rfl := hsteps
      obtain rfl := Option.some.inj hlast
      exact ⟨p, by rw [hnil rfl]; rfl, htakes⟩
    · rw [List.getLast?_cons_of_ne_nil hsteps] at hlast
      obtain ⟨q, hq, haccepts⟩ := hrest lastStep hlast
      have hne : elements ≠ [] := List.ne_nil_of_mem (List.mem_of_getLast? hq)
      exact ⟨q, by rwa [List.getLast?_cons_of_ne_nil hne], haccepts⟩
  | free hfree _ _ => exact absurd hfree (by simp [Step.isFree, h.1.notAny])

theorem areNames_prim : Path.AreNames ["x"] none :=
  ⟨fun name hname => List.mem_singleton.mp hname ▸ (by decide : isIdentifier "x".toList = true),
    nofun⟩

theorem areNames_property : Path.AreNames [] (some "x") :=
  ⟨nofun, fun name hname =>
    Option.some.inj hname ▸ (by decide +kernel : isPropertyName "x".toList = true)⟩

/-- A pattern that matches the root and has no stretch at the end matches nothing else. -/
theorem Plain.exists_not_matched_root (h : a.Plain isProperty) (htrailing : a.trailing = false)
    (hp : p.isRoot = true) (hmatched : (a.verdictAt p).matched = true) :
    a.AnswersBelow p false := by
  obtain ⟨habsolute, hbelow, hnil⟩ := Path.of_isRoot hp
  have hopen : p.isProperty = false := by
    simp only [Path.isRoot, Bool.and_eq_true, Bool.not_eq_true'] at hp
    exact hp.2
  obtain ⟨-, hwithin, hfinishes⟩ := (matched_iff_finishes habsolute).mp hmatched
  rw [htrailing, hnil, List.drop_nil] at hfinishes
  have hsteps : a.steps = [] := by
    rw [← List.getLast?_eq_none_iff, Option.eq_none_iff_forall_not_mem]
    intro s hs
    obtain ⟨q, hq, -⟩ := (accepts_of_finishes h.named hfinishes).2 s hs
    exact absurd hq (by simp)
  have hempty := Path.isEmpty_of_isAbsolute habsolute
  have hd : (p.below ["x"] none).isAbsolute = true := habsolute
  have hnone : (none : Option String).isSome = true → ["x"] = [] →
      Path.TakesProperty p.anchor p.prims := fun hno => absurd hno (by simp)
  refine ⟨p.below ["x"] none, fun hwell => hwell.below hempty areNames_prim hnone,
    hbelow _ hd, ?_⟩
  rw [← Bool.not_eq_true, verdictAt, stateAt, matched_iff_finishes hd]
  rintro ⟨-, -, hagain⟩
  rw [htrailing, hsteps, finishes_nil_iff] at hagain
  have hcount := Path.elementCount_le_of_isWithin hwithin
  rw [← Path.length_lineage p, hnil, List.length_nil, Nat.le_zero] at hcount
  simp [hcount, Path.lineage_below hopen, hnil, Path.elementsBelow] at hagain

/-- Where no stretch comes last, the property of a prim that is matched is not matched. -/
theorem Plain.exists_not_matched_prim (h : a.Plain isProperty) (htrailing : a.trailing = false)
    (hp : p.IsPrimPath) (hmatched : (a.verdictAt p).matched = true) :
    a.AnswersBelow p false := by
  obtain ⟨-, hwithin, hfinishes⟩ := (matched_iff_finishes hp.absolute).mp hmatched
  let d := p.below [] (some "x")
  have hd : d.isAbsolute = true := hp.absolute
  refine ⟨d, fun hwell => hwell.below hp.isEmpty areNames_property fun _ _ => hp.takesProperty,
    Path.isWithin_below hp.isEmpty hp.isProperty, ?_⟩
  rw [← Bool.not_eq_true, verdictAt, stateAt, matched_iff_finishes hd]
  rintro ⟨-, -, hagain⟩
  have hlineage : d.lineage.drop a.base.elementCount =
      p.lineage.drop a.base.elementCount ++ [d] := by
    have hcount := Path.elementCount_le_of_isWithin hwithin
    rw [Path.lineage_below hp.isProperty, List.drop_append_of_le_length (by simpa using hcount)]
    rfl
  rw [htrailing] at hfinishes hagain
  rw [hlineage] at hagain
  obtain ⟨hnil, haccepts⟩ := accepts_of_finishes h.named hagain
  have hsteps : a.steps ≠ [] := fun hsteps => absurd (hnil hsteps) (by simp)
  -- The last step takes the prim as well as the property.
  obtain ⟨s, hs⟩ : ∃ s, a.steps.getLast? = some s := ⟨_, List.getLast?_eq_some_getLast hsteps⟩
  obtain ⟨q, hq, hsd⟩ := haccepts s hs
  obtain rfl : d = q := by simpa using hq
  obtain ⟨q, hq, hsp⟩ := (accepts_of_finishes h.named hfinishes).2 s hs
  obtain rfl : p = q := by
    rw [List.getLast?_drop, Path.lineage_eq_concat hp.elementCount_ne_zero] at hq
    split at hq
    · exact absurd hq (by simp)
    · simpa using hq
  obtain ⟨endsProperty, hnamed⟩ := h.named.of_mem (List.mem_of_getLast? hs)
  have hno : d.isProperty = false := hnamed.isProperty_of_accepts hsp hsd hp.prim
  exact absurd hno (by simp [d, Path.isProperty, Path.below])

/-- Where a verdict is not constant, something below has the other one. -/
theorem Plain.answersBelow (h : a.Plain isProperty) (hp : p.isAbsolute = true)
    (hplace : p.isRoot = true ∨ p.isPrim = true) (hvaries : ¬(a.verdictAt p).constant = true) :
    a.AnswersBelow p !(a.verdictAt p).matched := by
  cases hmatched : (a.verdictAt p).matched with
  | true =>
    have htrailing : a.trailing = false := by
      cases hstate : a.stateAt p with
      | dead => simp [verdictAt, hstate, verdict, Verdict.always] at hmatched
      | pending => simp [verdictAt, hstate, verdict, Verdict.varying] at hmatched
      | live positions =>
        rw [verdictAt, hstate, verdict_live] at hmatched hvaries
        exact eq_false_of_ne_true fun hyes => hvaries (Bool.and_eq_true_iff.mpr ⟨hmatched, hyes⟩)
    rcases hplace with hroot | hprim
    · exact h.exists_not_matched_root htrailing hroot hmatched
    · exact h.exists_not_matched_prim htrailing ⟨hp, hprim⟩ hmatched
  | false =>
    have hbelowBase : a.base.isWithin p = true → a.AnswersBelow p true := fun hbase => by
      obtain ⟨d, hwell, hd, hmatches⟩ := h.exists_matched
      exact ⟨d, fun _ => hwell, Path.isWithin_trans hd hbase, hmatches⟩
    rcases hplace with hroot | hprim
    · exact hbelowBase ((Path.of_isRoot hroot).2.1 _ h.absolute)
    cases hstate : a.stateAt p with
    | dead => simp [verdictAt, hstate, verdict, Verdict.always] at hvaries
    | pending => exact hbelowBase (isWithin_of_pending hp hstate)
    | live positions => exact h.exists_matched_below ⟨hp, hprim⟩ hstate

/-- At the root and at prims a verdict is constant exactly if everything below has it. -/
theorem Plain.constant_iff (h : a.Plain isProperty) (hp : p.isAbsolute = true)
    (hplace : p.isRoot = true ∨ p.isPrim = true) :
    (a.verdictAt p).constant = true ↔
      ∀ d : Path, (p.WellFormed → d.WellFormed) → d.isWithin p = true →
        (a.verdictAt d).matched = (a.verdictAt p).matched := by
  constructor
  · intro hconst d _ hd
    have hsettles := settles_advanceAll (fits_advanceAll (fits_start a) p.lineage)
      (d.lineage.drop p.elementCount) hconst
    rw [← advanceAll_append, ← Path.lineage_of_isWithin hd] at hsettles
    exact congrArg Verdict.matched hsettles
  · intro hsame
    by_contra hvaries
    obtain ⟨d, hwell, hd, hother⟩ := h.answersBelow hp hplace hvaries
    rw [hsame d hwell hd] at hother
    exact absurd hother (by simp)

end Automaton

/-! ## Patterns -/

/-- The automaton of a pattern without predicates can be built, if its globs fit some name. -/
theorem Pattern.WellFormed.exists_plain {q : Pattern} (hq : q.WellFormed)
    (habsolute : q.isAbsolute = true) (hplain : q.conditions = [])
    (hglobs : GlobsFit library q.isProperty q.components) :
    ∃ a, Automaton.ofPattern library q = .ok a ∧ a.Plain q.isProperty := by
  have hnone : ∀ c ∈ q.components, c.condition? = none := List.filterMap_eq_nil_iff.mp hplain
  cases hbase : q.base.isProperty with
  | true =>
    obtain ⟨hnil, hproperty⟩ := hq.property hbase
    refine ⟨⟨q.base, [], false⟩, ?_, hq.base, habsolute, fun _ => rfl, trivial, fun _ => nofun⟩
    rw [Automaton.ofPattern, hnil]
    rfl
  | false =>
    obtain ⟨steps, trailing, hsteps, hnamed, hlone⟩ :=
      Automaton.exists_stepsOf (hq.components hbase) rfl hnone hglobs false
    refine ⟨⟨q.base, steps, trailing⟩, ?_, hq.base, habsolute, fun h => ?_, hnamed, ?_⟩
    · rw [Automaton.ofPattern, hsteps]
      rfl
    · exact absurd h (by simp [hbase])
    · intro hproperty hone
      exact (hq.takesProperty ⟨hproperty, ((hlone hproperty).2 hone).2⟩).2

namespace Evaluator

variable {library : Library} {q : Pattern} {a : Automaton} {ev : Evaluator} {p : Path}

theorem exists_of_pattern (hempty : q.isEmpty = false)
    (ha : Automaton.ofPattern library q = .ok a) :
    ∃ ev, ofExpression library (.ofPattern q) = .ok ev ∧ ev.formula = .leaf a := by
  have hleaf : Expression.ofPattern q = .of (.leaf (.pattern q)) := by
    simp [Expression.ofPattern, hempty]
  obtain ⟨ev, hev⟩ : ∃ ev, ofExpression library (.ofPattern q) = .ok ev := by
    refine Expression.exists_evaluator_iff.mpr ?_
    simp [hleaf, Expression.leaves, Tree.leaves, Leaf.Compiles, ha]
  refine ⟨ev, hev, ?_⟩
  have hcompile := compile_of_ofExpression hev
  rw [hleaf] at hcompile
  obtain ⟨a', ha', hformula⟩ := bind_eq_ok.mp hcompile
  rw [mapError_eq_ok, ha] at ha'
  rw [← Except.ok.inj hformula, Except.ok.inj ha']

theorem matchPath_eq_verdictAt (h : ev.formula = .leaf a) (hp : p.isAbsolute = true) :
    ev.matchPath p = a.verdictAt p := by
  rw [matchPath_eq_plain ev hp, plainVerdict, plainVerdictAfter, h]
  rfl

/-- A pattern without predicates, each glob of which fits some name, can be matched, and at the
root and at prims its verdict is constant exactly if everything below is answered alike.  Below
a path that can be reached only what can be reached counts. -/
theorem constant_matchPath_iff {text : String} (h : Pattern.parse text = .ok q)
    (habsolute : q.isAbsolute = true) (hplain : q.conditions = [])
    (hglobs : GlobsFit library q.isProperty q.components) :
    ∃ ev, ofExpression library (.ofPattern q) = .ok ev ∧
      ∀ p : Path, p.isAbsolute = true → (p.isRoot = true ∨ p.isPrim = true) →
        ((ev.matchPath p).constant = true ↔
          ∀ d : Path, (p.Reachable → d.Reachable) → d.isWithin p = true →
            (ev.matchPath d).matched = (ev.matchPath p).matched) := by
  have hq := Pattern.wellFormed_of_parse h
  obtain ⟨a, ha, hall⟩ := hq.exists_plain habsolute hplain hglobs
  obtain ⟨ev, hev, hformula⟩ := exists_of_pattern hq.notEmpty ha
  refine ⟨ev, hev, fun p hp hplace => ?_⟩
  rw [matchPath_eq_verdictAt hformula hp, hall.constant_iff hp hplace]
  simp only [Path.reachable_iff_wellFormed]
  refine forall₃_congr fun d _ hd => ?_
  have hdAbsolute : d.isAbsolute = true := by
    rw [Path.isAbsolute, Path.anchor_of_isWithin hd]
    exact hp
  rw [matchPath_eq_verdictAt hformula hdAbsolute]

/-- At `/a` something is left to match below, and at `/c` nothing is. -/
theorem constant_matchPath_iff_of_globs :
    let q : Pattern :=
      ⟨⟨.absolute, ["a"], none⟩, [.stretch, .glob "b*" none, .glob "x?" none], true⟩
    let a : Path := ⟨.absolute, ["a"], none⟩
    let c : Path := ⟨.absolute, ["c"], none⟩
    Pattern.parse "/a//b*.x?" = .ok q ∧ GlobsFit .basic q.isProperty q.components ∧
      ∃ ev, ofExpression .basic (.ofPattern q) = .ok ev ∧
        (∃ d : Path, d.Reachable ∧ d.isWithin a = true ∧
          (ev.matchPath d).matched ≠ (ev.matchPath a).matched) ∧
        ∀ d : Path, d.Reachable → d.isWithin c = true →
          (ev.matchPath d).matched = (ev.matchPath c).matched := by
  intro q a c
  have hparse : Pattern.parse "/a//b*.x?" = .ok q := by decide +kernel
  have hglobs : GlobsFit .basic q.isProperty q.components := by
    have hprim : Glob.Fits .basic "b*" "b" :=
      ⟨_, rfl, by decide +kernel⟩
    have hproperty : Glob.Fits .basic "x?" "xy" :=
      ⟨_, rfl, by decide +kernel⟩
    exact ⟨trivial, ⟨"b", (by decide : isIdentifier "b".toList = true), hprim⟩,
      ⟨"xy", (by decide +kernel : isPropertyName "xy".toList = true), hproperty⟩, trivial⟩
  obtain ⟨ev, hev, hexact⟩ := constant_matchPath_iff hparse rfl rfl hglobs
  have hverdicts : (ofExpression .basic (.ofPattern q)).toOption.map (fun ev =>
      ((ev.matchPath a).constant, (ev.matchPath c).constant)) = some (false, true) := by
    decide +kernel
  rw [hev] at hverdicts
  obtain ⟨ha, hc⟩ := Prod.mk.inj (Option.some.inj hverdicts)
  have hreachable : a.Reachable := .parse (show Path.parse "/a" = _ by decide +kernel)
  refine ⟨hparse, hglobs, ev, hev, ?_, fun d hd hwithin =>
    (hexact c rfl (Or.inr (by decide))).mp hc d (fun _ => hd) hwithin⟩
  by_contra hnone
  refine Bool.eq_false_iff.mp ha ((hexact a rfl (Or.inr (by decide))).mpr fun d hd hwithin => ?_)
  by_contra hne
  exact hnone ⟨d, hd hreachable, hwithin, hne⟩

end Evaluator

end PathSets
