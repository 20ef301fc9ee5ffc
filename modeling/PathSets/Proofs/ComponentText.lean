import PathSets.Proofs.GroupText
import PathSets.Proofs.PathForm

/-!
# Reading components back

`Pattern.Continues` says which components the reader can append to a pattern one by one:
no stretch after another, no plain name before the first wildcard, which would go into
the base instead, and a property only at the end.

The reader stands either at the beginning of an element or right after one
(`Pattern.readAfter`).  `Continues.read_write` follows written components from either
place to the end, by induction on how they continue the pattern.
-/

namespace PathSets

/-! ## Well-formed components -/

namespace Component

/-- Whether the text of a component is a name or a glob, for a property if `namespaced`
is set. -/
def HasShape (namespaced : Bool) : Component → Prop
  | stretch => False
  | bare _ => namespaced = false
  | named name _ =>
    if namespaced then isPropertyName name.toList = true else isIdentifier name.toList = true
  | glob shape _ => isGlob namespaced shape.toList = true

/-- An element of a pattern, or its property, whose predicate can be read back. -/
structure WellFormed (namespaced : Bool) (c : Component) : Prop where
  shape : c.HasShape namespaced
  condition : ∀ p ∈ c.condition?, p.WellFormed ∧ p.depth ≤ maxDepth

/-- Whether the component is a name without a predicate. -/
def isPlain (c : Component) : Bool :=
  c.isLiteral && c.condition?.isNone

variable {c : Component} {namespaced : Bool} {rest : List Char}

theorem HasShape.isStretch (h : c.HasShape namespaced) : c.isStretch = false := by
  cases c with
  | stretch => exact absurd h id
  | bare _ => rfl
  | named _ _ => rfl
  | glob _ _ => rfl

theorem WellFormed.isStretch (h : c.WellFormed namespaced) : c.isStretch = false :=
  h.shape.isStretch

theorem WellFormed.grouped_nameText (h : c.WellFormed namespaced) :
    Grouped Pattern.isElementChar c.nameText.toList := by
  have hshape := h.shape
  cases c with
  | stretch => exact .nil
  | bare _ => exact .nil
  | named name _ =>
    cases namespaced with
    | false => exact grouped_of_isIdentifier hshape
    | true => exact grouped_of_isPropertyName hshape
  | glob shape _ => exact grouped_of_isGlob hshape

theorem WellFormed.brace_not_mem_nameText (h : c.WellFormed namespaced) :
    '{' ∉ c.nameText.toList := by
  have hshape := h.shape
  cases c with
  | stretch => simp [nameText]
  | bare _ => simp [nameText]
  | named name _ =>
    cases namespaced with
    | false => exact not_mem_of_isIdentifier hshape (by decide)
    | true => exact not_mem_of_isPropertyName hshape (by decide) (by decide)
  | glob shape _ => exact not_mem_of_isGlob hshape

/-- Only a bare predicate has no name. -/
theorem HasShape.nameText_eq_empty (h : c.HasShape namespaced) (hname : c.nameText = "") :
    ∃ p, c = bare p := by
  cases c with
  | stretch => exact absurd h id
  | bare p => exact ⟨p, rfl⟩
  | named name _ =>
    obtain rfl : name = "" := hname
    cases namespaced with
    | false => exact absurd (show isIdentifier [] = true from h) (by decide)
    | true => exact absurd (show isPropertyName [] = true from h) (by decide)
  | glob shape _ =>
    obtain rfl : shape = "" := hname
    exact absurd rfl (ne_nil_of_isGlob h)

theorem write_eq (c : Component) :
    c.write = c.nameText.toList ++
      (c.condition?.elim [] fun p => '{' :: p.write ++ ['}']) := by
  rw [write]
  cases c.condition? <;> rfl

theorem WellFormed.grouped_write (h : c.WellFormed namespaced) :
    Grouped Pattern.isElementChar c.write := by
  rw [write_eq]
  cases hcondition : c.condition? with
  | none =>
    exact h.grouped_nameText.append .nil
  | some p =>
    exact h.grouped_nameText.append
      (.braces (Predicate.inert_write (h.condition p hcondition).1) .nil)

theorem WellFormed.write_ne_nil (h : c.WellFormed namespaced) : c.write ≠ [] := by
  rw [write_eq]
  by_cases hname : c.nameText = ""
  · obtain ⟨p, rfl⟩ := h.shape.nameText_eq_empty hname
    simp [condition?]
  · have hne : c.nameText.toList ≠ [] := fun heq => hname (String.toList_eq_nil_iff.mp heq)
    simp [hne]

end Component

/-- The text of an element separates into its name and its predicate. -/
theorem Pattern.splitPredicate_write {c : Component} {namespaced : Bool}
    (h : c.WellFormed namespaced) (after : List Char) :
    splitPredicate c.write after = .ok (c.nameText, c.condition?) := by
  have hrun : ∀ d ∈ c.nameText.toList, (d != '{') = true := by
    intro d hd
    rw [bne_iff_ne]
    rintro rfl
    exact h.brace_not_mem_nameText hd
  rw [Component.write_eq]
  cases hcondition : c.condition? with
  | none =>
    have hstop : StopsBefore (· != '{') [] := stopsBefore_nil
    simp only [Option.elim_none, splitPredicate, takeWhile_run hrun hstop,
      dropWhile_run hrun hstop, String.ofList_toList]
  | some p =>
    obtain ⟨hp, hdepth⟩ := h.condition p hcondition
    have hstop : StopsBefore (· != '{') ('{' :: (p.write ++ ['}'])) :=
      stopsBefore_cons (by decide)
    simp only [Option.elim_some, splitPredicate, List.cons_append, takeWhile_run hrun hstop,
      dropWhile_run hrun hstop, String.ofList_toList]
    simp [Predicate.read_write hp hdepth]

/-! ## Appends -/

namespace Pattern

variable {p : Pattern} {c : Component} {name : String} {condition : Option Predicate}

/-- The pattern with one more component. -/
def add (p : Pattern) (c : Component) : Pattern :=
  { p with components := p.components ++ [c] }

@[simp] theorem add_base (p : Pattern) (c : Component) : (p.add c).base = p.base := rfl

@[simp] theorem add_isProperty (p : Pattern) (c : Component) :
    (p.add c).isProperty = p.isProperty := rfl

@[simp] theorem add_components (p : Pattern) (c : Component) :
    (p.add c).components = p.components ++ [c] := rfl

theorem hasTrailingStretch_add (hproperty : p.isProperty = false) (c : Component) :
    (p.add c).hasTrailingStretch = c.isStretch := by
  simp [hasTrailingStretch, hproperty]

theorem grounded_of_not_isEmpty (h : p.base.isEmpty = false) : p.grounded = p := by
  simp [grounded, h]

theorem appendStretch_eq_add (hproperty : p.isProperty = false) (hbase : p.base.isEmpty = false)
    (hstretch : p.hasTrailingStretch = false) : p.appendStretch = p.add .stretch := by
  simp [appendStretch, hproperty, hstretch, grounded_of_not_isEmpty hbase, add]

theorem childShape?_of_isIdentifier (h : isIdentifier name.toList = true) :
    childShape? name = some .literal := by
  simp [childShape?, h]

theorem ne_upElement_of_isGlob {namespaced : Bool} (h : isGlob namespaced name.toList = true) :
    name ≠ upElement := by
  rintro rfl
  cases namespaced <;> exact absurd h (by decide)

theorem isEmpty_eq_false {text : String} (h : text.toList ≠ []) : text.isEmpty = false := by
  rw [Bool.eq_false_iff]
  intro hempty
  rw [String.isEmpty_iff] at hempty
  exact h (by simp [hempty])

theorem childShape?_of_isGlob (h : isGlob false name.toList = true) :
    childShape? name = some .glob := by
  have hempty : name.isEmpty = false := isEmpty_eq_false (ne_nil_of_isGlob h)
  simp [childShape?, h, hempty, isIdentifier_eq_false_of_isGlob h, ne_upElement_of_isGlob h]

/-- Appending a name or a glob adds it, unless it is a plain name that belongs in the
base. -/
theorem appendChild_ofShape {shape : Shape} (hshape : childShape? name = some shape)
    (hname : name.toList ≠ []) (hup : name ≠ upElement) (hproperty : p.isProperty = false)
    (hbase : p.base.isEmpty = false)
    (hplain : p.components = [] → (Component.ofShape shape name condition).isPlain = false) :
    p.appendChild name condition = .ok (p.add (.ofShape shape name condition)) := by
  have hempty : ¬ name.isEmpty = true := by simp [isEmpty_eq_false hname]
  have hup' : ¬ (name == upElement) = true := by simpa using hup
  simp only [appendChild, hproperty, hshape, grounded_of_not_isEmpty hbase]
  cases condition with
  | some predicate =>
    dsimp only
    rw [if_neg (by simp), if_neg hempty, if_neg hup', add, hproperty]
  | none =>
    have hadds : ¬ (p.components.isEmpty && shape == .literal) = true := by
      rw [Bool.and_eq_true, List.isEmpty_iff, beq_iff_eq]
      rintro ⟨hnil, rfl⟩
      cases hplain hnil
    dsimp only
    rw [if_neg (by simp), if_neg hempty, if_neg hadds, if_neg hup', add, hproperty]

/-- Appending an element adds it, unless it is a plain name that belongs in the base. -/
theorem appendChild_eq_add (h : c.WellFormed false) (hproperty : p.isProperty = false)
    (hbase : p.base.isEmpty = false) (hplain : p.components = [] → c.isPlain = false) :
    p.appendChild c.nameText c.condition? = .ok (p.add c) := by
  have hshape := h.shape
  cases c with
  | stretch => exact absurd hshape id
  | bare condition =>
    simp [appendChild, hproperty, Component.nameText, Component.condition?, childShape?,
      grounded_of_not_isEmpty hbase, add]
  | named name condition =>
    have hname : isIdentifier name.toList = true := hshape
    exact appendChild_ofShape (childShape?_of_isIdentifier hname) (ne_nil_of_isIdentifier hname)
      (Path.ne_upElement_of_isIdentifier hname) hproperty hbase hplain
  | glob shape condition =>
    have hglob : isGlob false shape.toList = true := hshape
    exact appendChild_ofShape (childShape?_of_isGlob hglob) (ne_nil_of_isGlob hglob)
      (ne_upElement_of_isGlob hglob) hproperty hbase hplain

theorem propertyShape?_of_isPropertyName (h : isPropertyName name.toList = true) :
    propertyShape? name = some .literal := by
  simp [propertyShape?, h]

theorem propertyShape?_of_isGlob (h : isGlob true name.toList = true) :
    propertyShape? name = some .glob := by
  simp [propertyShape?, h, isPropertyName_eq_false_of_isGlob h]

theorem closed_of_not_hasTrailingStretch (h : p.hasTrailingStretch = false) : p.closed = p := by
  simp [closed, h]

/-- Whether a pattern can take a property as its next component. -/
structure TakesProperty (p : Pattern) : Prop where
  isProperty : p.isProperty = false
  stretch : p.hasTrailingStretch = false
  base : p.components = [] → Path.TakesProperty p.base.anchor p.base.prims

theorem TakesProperty.canAppendProperty (hp : p.TakesProperty) {shape : Shape}
    (hshape : propertyShape? name = some shape) : p.canAppendProperty name = true := by
  have hroot : (p.base.isRoot && p.components.isEmpty) = false := by
    rw [Bool.and_eq_false_iff, or_iff_not_imp_right]
    intro hempty
    have htakes := hp.base (by simpa using hempty)
    rcases htakes with hlast | ⟨hrelative, -⟩
    · cases hprims : p.base.prims with
      | nil => simp [hprims] at hlast
      | cons prim prims => simp [Path.isRoot, hprims]
    · simp [Path.isRoot, Path.isAbsolute, hrelative]
  rw [Pattern.canAppendProperty, hp.isProperty, hroot, hshape]
  rfl

/-- Appending the name or glob of a property adds it, unless it is a plain name that
belongs in the base. -/
theorem appendProperty_ofShape {shape : Shape} (hshape : propertyShape? name = some shape)
    (hp : p.TakesProperty) (hbase : p.base.isEmpty = false)
    (hplain : p.components = [] → (Component.ofShape shape name condition).isPlain = false) :
    p.appendProperty name condition =
      .ok { p.add (.ofShape shape name condition) with isProperty := true } := by
  have hadds : ¬ (p.components.isEmpty && condition.isNone && shape == .literal) = true := by
    rw [Bool.and_eq_true, Bool.and_eq_true, List.isEmpty_iff, Option.isNone_iff_eq_none, beq_iff_eq]
    rintro ⟨⟨hnil, rfl⟩, rfl⟩
    cases hplain hnil
  simp only [appendProperty, hshape, grounded_of_not_isEmpty hbase,
    closed_of_not_hasTrailingStretch hp.stretch]
  rw [if_pos (hp.canAppendProperty hshape), if_neg hadds]
  rfl

/-- Appending a property adds it, unless it is a plain name that belongs in the base. -/
theorem appendProperty_eq_add (h : c.WellFormed true) (hp : p.TakesProperty)
    (hbase : p.base.isEmpty = false) (hplain : p.components = [] → c.isPlain = false) :
    c.nameText.isEmpty = false ∧ p.canAppendProperty c.nameText = true ∧
      p.appendProperty c.nameText c.condition? = .ok { p.add c with isProperty := true } := by
  have hshape := h.shape
  cases c with
  | stretch => exact absurd hshape id
  | bare condition => exact absurd (show true = false from hshape) (by simp)
  | named name condition =>
    have hname : isPropertyName name.toList = true := hshape
    have hliteral := propertyShape?_of_isPropertyName hname
    exact ⟨isEmpty_eq_false (ne_nil_of_isPropertyName hname), hp.canAppendProperty hliteral,
      appendProperty_ofShape hliteral hp hbase hplain⟩
  | glob shape condition =>
    have hglob : isGlob true shape.toList = true := hshape
    have hshape' := propertyShape?_of_isGlob hglob
    exact ⟨isEmpty_eq_false (ne_nil_of_isGlob hglob), hp.canAppendProperty hshape',
      appendProperty_ofShape hshape' hp hbase hplain⟩

/-! ## Components -/

/-- Components that can be appended to a pattern one by one, where the last one is a
property if `isProperty` is set. -/
inductive Continues (isProperty : Bool) : Pattern → List Component → Prop
  | done {p : Pattern} (h : isProperty = false) : Continues isProperty p []
  | stretch {p : Pattern} {components : List Component} (hp : p.hasTrailingStretch = false)
      (h : Continues isProperty (p.add .stretch) components) :
      Continues isProperty p (.stretch :: components)
  | element {p : Pattern} {c : Component} {components : List Component} (hc : c.WellFormed false)
      (hplain : p.components = [] → c.isPlain = false) (hlast : isProperty = true → components ≠ [])
      (h : Continues isProperty (p.add c) components) : Continues isProperty p (c :: components)
  | property {p : Pattern} {c : Component} (hproperty : isProperty = true)
      (hc : c.WellFormed true) (hplain : p.components = [] → c.isPlain = false)
      (hp : p.TakesProperty) : Continues isProperty p [c]

/-! ## Positions of the reader -/

section Positions

variable {isProperty afterSlash : Bool} {limit : Nat} {separator text rest : List Char}
  {components : List Component}

/-- Whether an element ends before this text. -/
def BoundsElement (rest : List Char) : Prop :=
  StopsBefore (fun c => c != '/' && c != '.') rest

/-- Reads on right after an element. -/
def readAfter (limit : Nat) (p : Pattern) (rest : List Char) : Reading PatternFault Pattern :=
  match rest with
  | '.' :: property => readProperty p property
  | '/' :: '/' :: rest =>
    if rest.head? = some '/' then .error ⟨.tooManySlashes, rest⟩
    else readElements limit p.appendStretch false rest
  | '/' :: next =>
    if next.isEmpty then .error ⟨.trailingSlash, rest⟩ else readElements limit p true next
  | _ => .ok p

theorem readElements_succ (hne : text ≠ []) :
    readElements (limit + 1) p afterSlash text =
      (readElement p afterSlash text (splitElement text).1 (splitElement text).2 >>= fun p =>
        readAfter limit p (splitElement text).2) := by
  cases text with
  | nil => exact absurd rfl hne
  | cons c text => rfl

/-- An element is read whole, and reading goes on right after it. -/
theorem readElements_grouped {element : List Char} (h : Grouped isElementChar element)
    (hne : element ≠ []) (hrest : BoundsElement rest) :
    readElements (limit + 1) p afterSlash (element ++ rest) =
      ((splitPredicate element rest >>= fun (name, condition) =>
        accept (element ++ rest) (p.appendChild name condition)) >>= fun p =>
        readAfter limit p rest) := by
  rw [readElements_succ (by simp [hne]), splitElement_append h hrest, readElement,
    List.isEmpty_eq_false_iff.mpr hne]
  rfl

/-- Reading a written component appends it, and reading goes on after it. -/
theorem readElements_write {q : Pattern} (hc : c.WellFormed false)
    (hproperty : p.isProperty = false) (hbase : p.base.isEmpty = false)
    (hplain : p.components = [] → c.isPlain = false) (hrest : BoundsElement rest)
    (hread : ∀ limit, rest.length ≤ limit → readAfter limit (p.add c) rest = .ok q)
    (hlimit : (c.write ++ rest).length ≤ limit) :
    readElements limit p afterSlash (c.write ++ rest) = .ok q := by
  have hpos : 0 < c.write.length := List.length_pos_iff.mpr hc.write_ne_nil
  rw [List.length_append] at hlimit
  obtain ⟨limit, rfl⟩ := Nat.exists_eq_add_of_le' (Nat.le_trans (by omega) hlimit : 1 ≤ limit)
  rw [readElements_grouped hc.grouped_write hc.write_ne_nil hrest, splitPredicate_write hc,
    ok_bind]
  simp only [appendChild_eq_add hc hproperty hbase hplain, accept, ok_bind]
  exact hread limit (by omega)

/-- Reading a written property appends it. -/
theorem readProperty_write (hc : c.WellFormed true) (hp : p.TakesProperty)
    (hbase : p.base.isEmpty = false) (hplain : p.components = [] → c.isPlain = false) :
    readProperty p c.write = .ok { p.add c with isProperty := true } := by
  obtain ⟨hname, hcan, happend⟩ := appendProperty_eq_add hc hp hbase hplain
  have hsplit : splitElement c.write = (c.write, []) := splitElement_grouped hc.grouped_write
  have hname' : c.nameText ≠ "" := by simpa using hname
  simp [readProperty, hsplit, splitPredicate_write hc, hname', hcan, happend, accept]

theorem writeComponents_element (hc : c.WellFormed false)
    (hlast : isProperty = true → components ≠ []) :
    writeComponents isProperty separator (c :: components) =
      separator ++ c.write ++ writeComponents isProperty ['/'] components := by
  have hdot : (isProperty && components.isEmpty) = false := by
    cases isProperty with
    | false => rfl
    | true => simpa using hlast rfl
  rw [writeComponents, hdot]
  · rfl
  · rintro rfl
    exact hc.shape

theorem writeComponents_property (hc : c.WellFormed true) :
    writeComponents true separator [c] = '.' :: c.write := by
  rw [writeComponents]
  · simp [writeComponents]
  · rintro rfl
    exact hc.shape

/-- What follows an element begins with a slash or a dot. -/
theorem Continues.boundsElement (h : Continues isProperty p components) :
    BoundsElement (writeComponents isProperty ['/'] components) := by
  cases h with
  | done _ => exact stopsBefore_nil
  | stretch _ _ => exact stopsBefore_cons (by decide)
  | element hc _ hlast _ =>
    rw [writeComponents_element hc hlast]
    exact stopsBefore_cons (by decide)
  | property hproperty hc _ _ =>
    subst hproperty
    rw [writeComponents_property hc]
    exact stopsBefore_cons (by decide)

/-- A written component begins with no slash and no dot. -/
theorem head_write_ne {namespaced : Bool} (hc : c.WellFormed namespaced) (rest : List Char) :
    ∀ d ∈ (c.write ++ rest).head?, d ≠ '/' ∧ d ≠ '.' := by
  intro d hd
  obtain ⟨e, more, hcons⟩ := List.exists_cons_of_ne_nil hc.write_ne_nil
  have hhead := hc.grouped_write.head e (by simp [hcons])
  obtain rfl : e = d := by simpa [hcons] using hd
  rcases hhead with helement | rfl | rfl
  · constructor <;> rintro rfl <;> exact absurd helement (by decide)
  · decide
  · decide

/-- After a slash comes an element. -/
theorem readAfter_slash (hne : text ≠ []) (hslash : text.head? ≠ some '/') :
    readAfter limit p ('/' :: text) = readElements limit p true text := by
  obtain ⟨c, text, rfl⟩ := List.exists_cons_of_ne_nil hne
  have hc : c ≠ '/' := by simpa using hslash
  rw [readAfter]
  · rfl
  · rintro rest heq
    exact hc (List.cons.inj heq).1

/-- After two slashes comes an element or nothing. -/
theorem readAfter_stretch (hslash : text.head? ≠ some '/') :
    readAfter limit p ('/' :: '/' :: text) = readElements limit p.appendStretch false text := by
  rw [readAfter, if_neg hslash]

/-- An element and what is written after it are appended, if what is written after it is. -/
theorem readElements_continued (hc : c.WellFormed false) (hproperty : p.isProperty = false)
    (hbase : p.base.isEmpty = false) (hplain : p.components = [] → c.isPlain = false)
    (hbounds : BoundsElement (writeComponents isProperty ['/'] components))
    (hread : ∀ limit, (writeComponents isProperty ['/'] components).length ≤ limit →
      readAfter limit (p.add c) (writeComponents isProperty ['/'] components) =
        .ok { p.add c with components := (p.add c).components ++ components, isProperty })
    (hlimit : (c.write ++ writeComponents isProperty ['/'] components).length ≤ limit) :
    readElements limit p afterSlash (c.write ++ writeComponents isProperty ['/'] components) =
      .ok { p with components := p.components ++ c :: components, isProperty } := by
  refine readElements_write hc hproperty hbase hplain hbounds (fun limit hlimit => ?_) hlimit
  rw [hread limit hlimit]
  simp [add]

/-- Reading what is written after an element appends all the components, and so does
reading what is written after a stretch. -/
theorem Continues.read_write (h : Continues isProperty p components)
    (hproperty : p.isProperty = false) (hbase : p.base.isEmpty = false) :
    (∀ limit, (writeComponents isProperty ['/'] components).length ≤ limit →
      readAfter limit p (writeComponents isProperty ['/'] components) =
        .ok { p with components := p.components ++ components, isProperty }) ∧
    (p.hasTrailingStretch = true →
      (writeComponents isProperty [] components).head? ≠ some '/' ∧
      ∀ limit, (writeComponents isProperty [] components).length ≤ limit →
      readElements limit p false (writeComponents isProperty [] components) =
        .ok { p with components := p.components ++ components, isProperty }) := by
  induction h with
  | @done p hlast =>
    have hsame : { p with components := p.components ++ [], isProperty := isProperty } = p := by
      rw [List.append_nil, hlast, ← hproperty]
    rw [hsame]
    refine ⟨fun limit _ => rfl, fun _ => ⟨by simp [writeComponents], fun limit _ => ?_⟩⟩
    rw [writeComponents, readElements]
  | @stretch p components hp h ih =>
    have hstretch : (p.add .stretch).hasTrailingStretch = true :=
      hasTrailingStretch_add hproperty .stretch
    obtain ⟨hslash, hread⟩ := (ih hproperty hbase).2 hstretch
    refine ⟨fun limit hlimit => ?_, fun htrailing => ?_⟩
    · have hlimit' : (writeComponents isProperty [] components).length ≤ limit := by
        rw [writeComponents, List.length_cons, List.length_cons] at hlimit
        omega
      rw [writeComponents, readAfter_stretch hslash, appendStretch_eq_add hproperty hbase hp,
        hread limit hlimit']
      simp [add]
    · rw [hp] at htrailing
      exact absurd htrailing (by simp)
  | @element p c components hc hplain hlast h ih =>
    have hstep : ∀ limit afterSlash,
        (c.write ++ writeComponents isProperty ['/'] components).length ≤ limit →
        readElements limit p afterSlash (c.write ++ writeComponents isProperty ['/'] components) =
          .ok { p with components := p.components ++ c :: components, isProperty } :=
      fun limit afterSlash => readElements_continued hc hproperty hbase hplain h.boundsElement
        (ih hproperty hbase).1
    have hhead : (c.write ++ writeComponents isProperty ['/'] components).head? ≠ some '/' :=
      fun heq => (head_write_ne hc _ '/' heq).1 rfl
    refine ⟨fun limit hlimit => ?_, fun _ => ⟨?_, fun limit hlimit => ?_⟩⟩
    · rw [writeComponents_element hc hlast, List.append_assoc, List.singleton_append] at hlimit ⊢
      rw [List.length_cons] at hlimit
      rw [readAfter_slash (by simp [hc.write_ne_nil]) hhead]
      exact hstep limit true (by omega)
    · rwa [writeComponents_element hc hlast, List.nil_append]
    · rw [writeComponents_element hc hlast, List.nil_append] at hlimit ⊢
      exact hstep limit false hlimit
  | @property p c hlast hc hplain hp =>
    subst hlast
    refine ⟨fun limit _ => ?_, fun htrailing => ?_⟩
    · rw [writeComponents_property hc, readAfter, readProperty_write hc hp hbase hplain]
      rfl
    · rw [hp.stretch] at htrailing
      exact absurd htrailing (by simp)

/-- Reading an element and what is written after it appends all of them. -/
theorem Continues.readElements_write (h : Continues isProperty (p.add c) components)
    (hc : c.WellFormed false) (hplain : p.components = [] → c.isPlain = false)
    (hproperty : p.isProperty = false) (hbase : p.base.isEmpty = false)
    (hlimit : (c.write ++ writeComponents isProperty ['/'] components).length ≤ limit) :
    readElements limit p afterSlash (c.write ++ writeComponents isProperty ['/'] components) =
      .ok { p with components := p.components ++ c :: components, isProperty } :=
  readElements_continued hc hproperty hbase hplain h.boundsElement
    (h.read_write hproperty hbase).1 hlimit

end Positions

end Pattern

end PathSets
