import PathSets.Proofs.PathRoundTrip
import PathSets.Proofs.PatternForm

/-!
# Plain texts

A text is plain if it has no globs, no predicates and no stretches.  A path is read from it
element by element, a pattern with appends from its beginning to its end, and both readers
take the same texts and find the same path in them (`Pattern.parse_plain_iff`).

There is one exception.  Where only `.` and `..` have come, the pattern reader takes a slash
that ends the text, which the path reader never does.

* A pattern that is read from a plain text has no components: `ElementTrace.plain` and
  `LeadingTrace.plain` follow the reader along its trace and say what text it has passed.
* A plain path is read as a pattern because the pattern is written like the path, and `./`
  before it changes nothing (`Pattern.read_of_spells`).
-/

namespace PathSets

/-- A text without characters of globs and predicates and without stretches. -/
structure IsPlain (text : List Char) : Prop where
  chars : ∀ c ∈ text, c ∉ ['*', '?', '[', ']', '{', '}']
  slashes : ¬['/', '/'] <:+: text

instance (text : List Char) : Decidable (IsPlain text) :=
  have : Decidable (∀ c ∈ text, c ∉ ['*', '?', '[', ']', '{', '}']) :=
    text.decidableBAll fun c => c ∉ ['*', '?', '[', ']', '{', '}']
  have : Decidable (['/', '/'] <:+: text) := List.instDecidableIsInfixOfDecidableEq _ _
  decidable_of_iff ((∀ c ∈ text, c ∉ ['*', '?', '[', ']', '{', '}']) ∧ ¬['/', '/'] <:+: text)
    ⟨fun h => ⟨h.1, h.2⟩, fun h => ⟨h.chars, h.slashes⟩⟩

/-- Whether a path goes up, or stays where it is, and does nothing else. -/
structure Path.Climbs (p : Path) : Prop where
  anchor : p.anchor = .relative
  prims : ∀ prim ∈ p.prims, prim = upElement
  property : p.property = none

theorem Path.climbs_replicate (ups : Nat) :
    Climbs ⟨.relative, List.replicate ups upElement, none⟩ :=
  ⟨rfl, fun _ => List.eq_of_mem_replicate, rfl⟩

theorem Path.Climbs.exists_eq {path : Path} (h : path.Climbs) :
    ∃ ups, path = ⟨.relative, List.replicate ups upElement, none⟩ := by
  obtain ⟨anchor, prims, property?⟩ := path
  obtain ⟨rfl, hprims, rfl⟩ := h
  exact ⟨prims.length, by rw [← List.eq_replicate_length.mpr hprims]⟩

section Plain

variable {text more : List Char} {namespaced : Bool}

theorem IsPlain.part (h : IsPlain text) (hmore : more <:+: text) : IsPlain more :=
  ⟨fun c hc => h.chars c (hmore.subset hc), fun hslashes => h.slashes (hslashes.trans hmore)⟩

theorem IsPlain.isGlob_eq_false (h : IsPlain text) : isGlob namespaced text = false := by
  have hno : ∀ c ∈ ['*', '?', '[', ']', '{', '}'], c ∉ text := fun c hc hmem => h.chars c hmem hc
  exact PathSets.isGlob_eq_false (hno _ (by decide)) (hno _ (by decide)) (hno _ (by decide))

end Plain

namespace Pattern

variable {p q : Pattern} {anchor : Anchor} {prims : List String} {property? : Option String}
  {text element rest after : List Char} {name : String} {condition : Option Predicate}
  {shape : Shape} {afterSlash first : Bool} {limit : Nat}

/-! ## Elements -/

/-- An element of a plain text is a name or a glob without a predicate. -/
theorem splitPredicate_plain_cases (hplain : IsPlain element)
    (h : splitPredicate element after = .ok (name, condition)) :
    condition = none ∧ element = name.toList := by
  obtain hnone | ⟨body, predicate, -, -, rfl⟩ := splitPredicate_cases h
  · exact hnone
  · exact absurd (by simp) (hplain.chars '{' (by simp))

/-- An element of a plain text is empty, or a name that the base goes down to. -/
theorem Adds.plain (h : Adds (ofPrims anchor prims) afterSlash element rest q)
    (hplain : IsPlain element) (hanchor : anchor ≠ .empty) :
    (element = [] ∧ afterSlash = false ∧ rest.head? = some '.' ∧ q = ofPrims anchor prims) ∨
      ∃ name : String, element = name.toList ∧ element ≠ [] ∧
        q = ofPrims anchor (prims ++ [name]) := by
  cases h with
  | empty hslash => exact Or.inl ⟨rfl, hslash, rfl, rfl⟩
  | @parts _ _ name condition _ hne hdot hsplit happend =>
    refine Or.inr ⟨name, ?_⟩
    obtain ⟨rfl, rfl⟩ := splitPredicate_plain_cases hplain hsplit
    have hup : name ≠ upElement := (splitPredicate_eq_ok hsplit).2.1 hdot
    have hname : name.isEmpty = false := isEmpty_eq_false hne
    obtain ⟨hempty, -, -⟩ | ⟨base, -, -, hchild, rfl⟩ | ⟨predicate, hsome, -⟩ |
      ⟨shape, hshape, -, -, hglob, -⟩ :=
        appendChild_cases (p := ofPrims anchor prims) rfl (isEmpty_ofPrims hanchor) happend
    · rw [hname] at hempty
      exact absurd hempty (by simp)
    · obtain ⟨-, -, ⟨heq, -, -⟩ | ⟨heq, -, -⟩ | ⟨-, rfl⟩⟩ := Path.child_cases hchild
      · exact absurd heq hup
      · exact absurd heq hup
      · exact ⟨rfl, hne, rfl⟩
    · exact absurd hsome (by simp)
    · obtain rfl : shape = .glob := by simpa using hglob rfl
      rw [childShape?, hplain.isGlob_eq_false] at hshape
      split at hshape <;> simp at hshape

/-- A property in a plain text is given to the base. -/
theorem readProperty_plain (h : readProperty (ofPrims anchor prims) text = .ok q)
    (hplain : IsPlain text) (hanchor : anchor ≠ .empty) :
    ∃ name : String, text = name.toList ∧ q = ⟨⟨anchor, prims, some name⟩, [], true⟩ := by
  obtain ⟨name, condition, hsplit, -, happend⟩ := readProperty_cases h
  obtain ⟨rfl, rfl⟩ := splitPredicate_plain_cases hplain hsplit
  refine ⟨name, rfl, ?_⟩
  have hclosed : (ofPrims anchor prims).closed = ofPrims anchor prims :=
    closed_of_not_hasTrailingStretch rfl
  obtain ⟨-, ⟨base, -, hproperty, rfl⟩ | ⟨shape, hshape, hglob, -⟩⟩ :=
    appendProperty_cases (p := ofPrims anchor prims) (isEmpty_ofPrims hanchor) happend
  · rw [hclosed] at hproperty ⊢
    obtain ⟨-, -, rfl⟩ := Path.withProperty_cases hproperty
    rfl
  · rw [hclosed] at hglob
    obtain rfl : shape = .glob := by simpa using hglob rfl
    rw [propertyShape?, hplain.isGlob_eq_false] at hshape
    split at hshape <;> simp at hshape

/-- Elements of a plain text are names that the base goes down through, and perhaps its
property.  Behind a slash there is a name. -/
theorem ElementTrace.plain (h : ElementTrace p afterSlash text q) (hp : p = ofPrims anchor prims)
    (hplain : IsPlain text) (hanchor : anchor ≠ .empty) :
    ∃ names property?, text = Path.writePrims names ++ Path.writeProperty property? ∧
      q = ofPath ⟨anchor, prims ++ names, property?⟩ ∧
      (afterSlash = true → text ≠ [] → names ≠ []) := by
  induction h generalizing prims with
  | done =>
    subst hp
    exact ⟨[], none, rfl, by rw [List.append_nil]; rfl, fun _ hne => absurd rfl hne⟩
  | last h =>
    subst hp
    obtain ⟨-, -, hdot, -⟩ | ⟨name, rfl, -, rfl⟩ := h.plain hplain hanchor
    · exact absurd hdot (by simp)
    · exact ⟨[name], none, by simp [Path.writePrims, Path.writeProperty], rfl, by simp⟩
  | @property _ _ _ _ element property h hproperty =>
    subst hp
    have helement : IsPlain element := hplain.part (List.prefix_append _ _).isInfix
    have hrest : IsPlain property :=
      hplain.part ((List.suffix_cons _ _).trans (List.suffix_append _ _)).isInfix
    obtain ⟨rfl, hslash, -, rfl⟩ | ⟨name, rfl, -, rfl⟩ := h.plain helement hanchor
    · obtain ⟨x, rfl, rfl⟩ := readProperty_plain hproperty hrest hanchor
      refine ⟨[], some x, by simp [Path.writePrims, Path.writeProperty], ?_, ?_⟩
      · rw [List.append_nil]
        rfl
      · simp [hslash]
    · obtain ⟨x, rfl, rfl⟩ := readProperty_plain hproperty hrest hanchor
      exact ⟨[name], some x, by simp [Path.writePrims, Path.writeProperty], rfl, by simp⟩
  | @stretch _ _ _ _ element more h _ _ =>
    exact absurd ⟨element, more, by simp⟩ hplain.slashes
  | @slash _ _ _ _ element more h hne _ ih =>
    subst hp
    have helement : IsPlain element := hplain.part (List.prefix_append _ _).isInfix
    have hmore : IsPlain more :=
      hplain.part ((List.suffix_cons _ _).trans (List.suffix_append _ _)).isInfix
    obtain ⟨-, -, hdot, -⟩ | ⟨name, rfl, -, rfl⟩ := h.plain helement hanchor
    · exact absurd hdot (by simp)
    obtain ⟨names, property?, htext, hq, hnames⟩ := ih rfl hmore
    obtain ⟨next, names, rfl⟩ := List.exists_cons_of_ne_nil (hnames rfl hne)
    refine ⟨name :: next :: names, property?, ?_, ?_, by simp⟩
    · rw [htext, Path.writePrims_cons_cons, List.append_assoc, List.cons_append]
    · rw [hq, List.append_assoc, List.singleton_append]

theorem ElementTrace.eq_of_nil (h : ElementTrace p afterSlash [] q) : q = p := by
  generalize htext : ([] : List Char) = text at h
  cases h with
  | done => rfl
  | last h =>
    cases h with
    | parts hne => exact absurd htext.symm hne
  | property => exact absurd htext (by simp)
  | stretch => exact absurd htext (by simp)
  | slash => exact absurd htext (by simp)

/-! ## Leading elements -/

/-- The pattern of the path that goes up a number of times. -/
def climb (ups : Nat) : Pattern :=
  ofPrims .relative (List.replicate ups upElement)

/-- A leading element of a climb is `.` or goes up once more. -/
theorem LeadTo.climb {ups : Nat} (h : LeadTo (climb ups) first text q) :
    (first = true ∧ text = ['.'] ∧ q = Pattern.climb ups) ∨
      (text = upElement.toList ∧ q = Pattern.climb (ups + 1)) := by
  cases h with
  | here hfirst => exact Or.inl ⟨hfirst, rfl, rfl⟩
  | up happend => exact Or.inr ⟨rfl, (Except.ok.inj ((appendChild_up ups).symm.trans happend)).symm⟩

theorem LeadingTrace.eq_of_nil (h : LeadingTrace p first [] q) : q = p := by
  generalize htext : ([] : List Char) = text at h
  cases h with
  | done => rfl
  | elements h => exact (htext ▸ h).eq_of_nil
  | last h => cases h <;> exact absurd htext (by simp)
  | stretch => exact absurd htext (by simp)
  | slash => exact absurd htext (by simp)

/-- Leading elements of a plain text go up, names and a property follow, and nothing else
does, except that the text may end in a slash if no name comes.  A `.` comes first or not at
all. -/
theorem LeadingTrace.plain (ups : Nat) (h : LeadingTrace p first text q) (hp : p = climb ups)
    (hplain : IsPlain text) (hne : text ≠ []) :
    (∃ prims property?, (first = false → prims ≠ []) ∧
        text = Path.writePrims prims ++ Path.writeProperty property? ∧
        q = ofPath ⟨.relative, List.replicate ups upElement ++ prims, property?⟩) ∨
      (∃ more, text = Path.writePrims (List.replicate (more + 1) upElement) ++ ['/'] ∧
        q = climb (ups + (more + 1))) ∨
      (first = true ∧ ∃ rest, text = '.' :: rest ∧
        (rest = [] ∧ q = climb ups ∨
          ∃ more, rest = '/' :: more ∧ LeadingTrace (climb ups) false more q)) := by
  have hone : Path.writePrims [upElement] = upElement.toList := by simp [Path.writePrims]
  induction h generalizing ups with
  | done => exact absurd rfl hne
  | elements h =>
    subst hp
    obtain ⟨names, property?, rfl, rfl, hnames⟩ := h.plain rfl hplain (by simp)
    exact Or.inl ⟨names, property?, fun hfirst => hnames (by simp [hfirst]) hne, rfl, rfl⟩
  | last h =>
    subst hp
    obtain ⟨hfirst, rfl, rfl⟩ | ⟨rfl, rfl⟩ := h.climb
    · exact Or.inr (Or.inr ⟨hfirst, [], rfl, Or.inl ⟨rfl, rfl⟩⟩)
    · refine Or.inl ⟨[upElement], none, by simp, by simp [hone, Path.writeProperty], ?_⟩
      rw [← List.replicate_succ']
      rfl
  | @stretch _ _ _ _ lead more _ _ =>
    exact absurd ⟨lead, more, by simp⟩ hplain.slashes
  | @slash _ _ _ _ lead more h hmore ih =>
    subst hp
    obtain ⟨hfirst, rfl, rfl⟩ | ⟨rfl, rfl⟩ := h.climb
    · exact Or.inr (Or.inr ⟨hfirst, _, rfl, Or.inr ⟨more, rfl, hmore⟩⟩)
    by_cases hnil : more = []
    · subst hnil
      exact Or.inr (Or.inl ⟨0, by rw [Nat.zero_add, List.replicate_one, hone], hmore.eq_of_nil⟩)
    have hrest : IsPlain more :=
      hplain.part ((List.suffix_cons _ _).trans (List.suffix_append _ _)).isInfix
    have hup : ∀ {prims}, prims ≠ [] → upElement.toList ++ '/' :: Path.writePrims prims =
        Path.writePrims (upElement :: prims) := fun hprims => by
      rw [← hone, ← Path.writePrims_append (by simp) hprims, List.singleton_append]
    obtain ⟨prims, property?, hprims, rfl, rfl⟩ | ⟨n, rfl, rfl⟩ | ⟨hno, -⟩ := ih _ rfl hrest hnil
    · refine Or.inl ⟨upElement :: prims, property?, by simp, ?_, ?_⟩
      · rw [← hup (hprims rfl), List.append_assoc, List.cons_append]
      · rw [List.replicate_succ', List.append_assoc, List.singleton_append]
    · have hreplicate : List.replicate (n + 1 + 1) upElement =
          upElement :: List.replicate (n + 1) upElement := List.replicate_succ
      refine Or.inr (Or.inl ⟨n + 1, ?_, ?_⟩)
      · rw [hreplicate, ← hup (by simp), List.append_assoc, List.cons_append]
      · rw [Nat.add_assoc, Nat.add_comm 1]
    · exact absurd hno (by simp)

/-! ## Paths in plain texts -/

theorem ofPath_eq (path : Path) :
    ofPath path = { base := path, isProperty := path.isProperty } := by
  cases hproperty : path.isProperty <;> simp [ofPath, setBase, empty, hproperty]

/-- A relative path is written like its prims and its property, where it has any. -/
theorem write_of_relative (h : prims ≠ [] ∨ property?.isSome = true) :
    Path.writePrims prims ++ Path.writeProperty property? =
      Path.write ⟨.relative, prims, property?⟩ := by
  have hhere : ¬Path.isHere ⟨.relative, prims, property?⟩ = true := by
    rcases h with h | h <;> simp [Path.isHere, Path.isProperty, h]
  rw [Path.write, if_neg hhere]

theorem writePrims_climb (ups : Nat) :
    Path.writePrims (List.replicate (ups + 1) upElement) =
      Path.write ⟨.relative, List.replicate (ups + 1) upElement, none⟩ := by
  rw [← write_of_relative (Or.inl (by simp)), Path.writeProperty, List.append_nil]

/-- A pattern that is read from a plain text is that of the path that the text spells, or of
one that climbs and that the text spells before a slash. -/
theorem spells_of_read (h : read text = .ok q) (hplain : IsPlain text) :
    ∃ path, q = ofPath path ∧ (Path.Spells text path ∨
      ∃ front, text = front ++ ['/'] ∧ Path.Spells front path ∧ path.Climbs) := by
  obtain ⟨more, rfl, -⟩ | ⟨more, rfl, hmore⟩ | ⟨hne, hmore⟩ := read_cases h
  · exact absurd ⟨[], more, rfl⟩ hplain.slashes
  · obtain ⟨names, property?, rfl, rfl, -⟩ :=
      hmore.plain rfl (hplain.part (List.suffix_cons _ _).isInfix) (by simp)
    exact ⟨_, rfl, Or.inl (Or.inl rfl)⟩
  obtain ⟨prims, property?, -, rfl, rfl⟩ | ⟨ups, rfl, rfl⟩ | ⟨-, _, rfl, ⟨rfl, rfl⟩ |
    ⟨more, rfl, hrest⟩⟩ := LeadingTrace.plain 0 hmore rfl hplain hne
  · have hsome : prims ≠ [] ∨ property?.isSome = true := by
      by_contra hno
      obtain ⟨rfl, rfl⟩ : prims = [] ∧ property? = none := by simpa using hno
      exact hne rfl
    exact ⟨_, rfl, Or.inl (Or.inl (write_of_relative hsome))⟩
  · rw [Nat.zero_add]
    exact ⟨_, rfl, Or.inr ⟨_, rfl, Or.inl (writePrims_climb ups), Path.climbs_replicate _⟩⟩
  · exact ⟨.here, rfl, Or.inl (Or.inl rfl)⟩
  by_cases hnil : more = []
  · subst hnil
    exact ⟨.here, hrest.eq_of_nil, Or.inr ⟨['.'], rfl, Or.inl rfl, Path.climbs_replicate 0⟩⟩
  have hmorePlain : IsPlain more :=
    hplain.part ((List.suffix_cons _ _).trans (List.suffix_cons _ _)).isInfix
  obtain ⟨prims, property?, hprims, rfl, rfl⟩ | ⟨ups, rfl, rfl⟩ | ⟨hno, -⟩ :=
    hrest.plain 0 rfl hmorePlain hnil
  · rw [write_of_relative (Or.inl (hprims rfl))]
    exact ⟨_, rfl, Or.inl (Or.inr ⟨rfl, hprims rfl, rfl⟩)⟩
  · rw [Nat.zero_add, writePrims_climb]
    exact ⟨_, rfl, Or.inr ⟨_, rfl, Or.inr ⟨rfl, by simp, rfl⟩, Path.climbs_replicate _⟩⟩
  · exact absurd hno (by simp)

/-! ## Reading plain paths -/

/-- A `.` before the elements of a relative pattern changes nothing. -/
theorem readLeading_here (hslash : text.head? ≠ some '/') :
    readLeading (limit + 1) p true ('.' :: '/' :: text) = readLeading limit p false text := by
  have hends : endsElement ('/' :: text) = true := rfl
  simp [readLeading, after?, hends, readAfterLeading_slash hslash]

theorem wellFormed_ofPath {path : Path} (hpath : path.WellFormed) (hempty : path.isEmpty = false) :
    (ofPath path).WellFormed := by
  rw [ofPath_eq]
  refine ⟨hpath, hempty, fun hproperty => ⟨rfl, hproperty⟩, fun hproperty => ?_⟩
  rw [hproperty]
  exact .done rfl

/-- The pattern of a path is written like the path. -/
theorem write_ofPath (path : Path) : (ofPath path).write = path.write := by
  rw [ofPath_eq, write, writeBase]
  by_cases hroot : path.isRoot = true
  · obtain ⟨⟨hanchor, hprims⟩, hproperty⟩ : (path.anchor = .absolute ∧ path.prims = []) ∧
        path.property = none := by
      simpa [Path.isRoot, Path.isAbsolute, Path.isProperty] using hroot
    rw [if_pos hroot, Path.write, hanchor, hprims, hproperty]
    rfl
  by_cases hhere : path.isHere = true
  · obtain rfl := Path.eq_here_of_isHere hhere
    rfl
  · rw [if_neg hroot, if_neg hhere, writeComponents, List.append_nil]

/-- A text that spells a path is read as the pattern of the path. -/
theorem read_of_spells {path : Path} (hpath : path.WellFormed) (htext : Path.Spells text path)
    (hne : text ≠ []) : read text = .ok (ofPath path) := by
  rcases htext with rfl | ⟨hanchor, hprims, rfl⟩
  · have hempty : path.isEmpty = false := by
      rw [Bool.eq_false_iff]
      intro hempty
      rw [Path.write, beq_iff_eq.mp hempty] at hne
      exact hne rfl
    rw [← write_ofPath path]
    exact read_write (wellFormed_ofPath hpath hempty)
  · have hp : (ofPath path).WellFormed :=
      wellFormed_ofPath hpath (by simp [Path.isEmpty, hanchor])
    have hbase : (ofPath path).base = path := by rw [ofPath_eq]
    have habsolute : ¬ (ofPath path).base.isAbsolute = true := by
      simp [hbase, Path.isAbsolute, hanchor]
    have hwrite := hp.write_prims (hbase.symm ▸ hprims)
    rw [if_neg habsolute, List.nil_append] at hwrite
    have hslash := (hp.head_prims (hbase.symm ▸ hprims)).2
    rw [← hwrite] at hslash
    rw [← write_ofPath path, read_of_head (by simp) (by simp), List.length_cons,
      readLeading_here hslash, hwrite]
    exact hp.readLeading_prims (hbase.symm ▸ hanchor) (hbase.symm ▸ hprims) (by simp)

/-- A slash after leading `..` elements is passed over at the end of the text. -/
theorem readLeading_climb (ups : Nat)
    (hlimit : (Path.writePrims (List.replicate (ups + 1) upElement) ++ ['/']).length ≤ limit) :
    readLeading limit (climb 0) first
        (Path.writePrims (List.replicate (ups + 1) upElement) ++ ['/']) =
      .ok (climb (ups + 1)) := by
  obtain ⟨limit', -, hread⟩ :
      ∃ limit' ≥ 1, readLeading limit (climb 0) first _ = _ :=
    readLeading_ups ups 0 (stopsBefore_cons (by decide)) hlimit
  rw [hread, Nat.zero_add]
  cases limit' <;> rfl

/-- A slash after a path that climbs changes nothing. -/
theorem read_append_slash {path : Path} (hpath : path.Climbs) (htext : Path.Spells text path) :
    read (text ++ ['/']) = .ok (ofPath path) := by
  obtain ⟨ups, rfl⟩ := hpath.exists_eq
  cases ups with
  | zero =>
    obtain rfl | ⟨-, hprims, -⟩ := htext
    · rfl
    · exact absurd rfl hprims
  | succ ups =>
    have hdots : ∃ tail, Path.writePrims (List.replicate (ups + 1) upElement) = '.' :: tail := by
      obtain ⟨tail, htail⟩ := Path.exists_writePrims_cons upElement (List.replicate ups upElement)
      exact ⟨'.' :: tail, htail⟩
    obtain ⟨tail, htail⟩ := hdots
    rw [Path.Spells, ← writePrims_climb] at htext
    obtain rfl | ⟨-, -, rfl⟩ := htext
    · rw [read_of_head (by simp) (by simp [htail])]
      exact readLeading_climb ups (Nat.le_refl _)
    · rw [List.cons_append, List.cons_append, read_of_head (by simp) (by simp), List.length_cons,
        readLeading_here (by simp [htail])]
      exact readLeading_climb ups (Nat.le_succ _)

/-- From a plain text a pattern is read if and only if a path is, and then it is the pattern
of that path and has no components.  But after a path that goes up, or stays where it is, and
does nothing else, the text of the pattern may end in a slash. -/
theorem parse_plain_iff {text : String} (hne : text ≠ "") (hplain : IsPlain text.toList)
    (p : Pattern) :
    parse text = .ok p ↔
      ∃ path, p = { base := path, components := [], isProperty := path.isProperty } ∧
        (Path.parse text = .ok path ∨
          ∃ front, text = front ++ "/" ∧ Path.parse front = .ok path ∧ path.Climbs) := by
  have hparse : ∀ {text path}, Path.parse text = .ok path ↔
      path.WellFormed ∧ Path.Spells text.toList path :=
    mapError_eq_ok.trans Path.read_eq_ok_iff
  rw [parse, mapError_eq_ok]
  constructor
  · intro h
    obtain ⟨path, rfl, htext⟩ := spells_of_read h hplain
    have hpath : path.WellFormed := by
      have hbase := (wellFormed_of_read h).base
      rwa [ofPath_eq] at hbase
    refine ⟨path, ofPath_eq path, htext.imp (fun htext => hparse.mpr ⟨hpath, htext⟩) ?_⟩
    rintro ⟨front, hslash, hfront, hclimbs⟩
    refine ⟨String.ofList front, ?_, hparse.mpr ⟨hpath, ?_⟩, hclimbs⟩
    · rw [← String.toList_inj, hslash, String.toList_append, String.toList_ofList]
      rfl
    · rwa [String.toList_ofList]
  · rintro ⟨path, rfl, htext | ⟨front, rfl, hfront, hclimbs⟩⟩
    · obtain ⟨hpath, htext⟩ := hparse.mp htext
      rw [← ofPath_eq]
      exact read_of_spells hpath htext fun hnil => hne (String.toList_eq_nil_iff.mp hnil)
    · rw [← ofPath_eq, String.toList_append]
      exact read_append_slash hclimbs (hparse.mp hfront).2

/-- Two prims up and one down, with a property there. -/
theorem parse_plain_iff_up :
    let path : Path := ⟨.relative, ["..", "..", "rig"], some "x:y"⟩
    "./../../rig.x:y" ≠ "" ∧ IsPlain "./../../rig.x:y".toList ∧
      Path.parse "./../../rig.x:y" = .ok path ∧
      parse "./../../rig.x:y" = .ok { base := path, components := [], isProperty := true } := by
  intro path
  have hplain : IsPlain "./../../rig.x:y".toList := by decide +kernel
  have hpath : Path.parse "./../../rig.x:y" = .ok path := by decide +kernel
  exact ⟨by decide, hplain, hpath,
    (parse_plain_iff (by decide) hplain _).mpr ⟨path, rfl, Or.inl hpath⟩⟩

/-- A slash at the end is refused after a name, also by the pattern reader, but not after
leading elements. -/
theorem parse_plain_fails_at_slash :
    (parse "a/").isOk = false ∧
      ∀ text ∈ ["./", "../", "./../../"], IsPlain text.toList ∧ (parse text).isOk = true ∧
        (Path.parse text).isOk = false := by
  decide +kernel

end Pattern

end PathSets
