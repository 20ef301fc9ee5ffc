import PathSets.Path.Edit
import PathSets.Proofs.Outcome
import PathSets.Proofs.Words

/-!
# Reading paths back

A path is `WellFormed` if its names are names, it goes up only before it goes down and
only if it is relative, and its property stands on a named prim or on `.`.  These are
the paths that come out of the reader (`Path.wellFormed_of_read`) and of the steps to a
child and to a property, and their written form is read back (`Path.read_write`).

The written form is cut at its slashes into one element for each prim, the last with the
property (`Path.spelled`).  Reading goes through the elements in two stretches: the
leading `..`, and the names.
-/

namespace PathSets

/-! ## Property names -/

theorem mem_intercalate {c d : Char} {parts : List (List Char)}
    (h : c ∈ [d].intercalate parts) : c = d ∨ ∃ part ∈ parts, c ∈ part := by
  induction parts with
  | nil => exact absurd h (by simp)
  | cons part parts ih =>
    cases parts with
    | nil => exact Or.inr ⟨part, by simp, by simpa using h⟩
    | cons part' parts =>
      rw [List.intercalate_cons_cons, List.append_assoc, List.mem_append, List.mem_append] at h
      rcases h with h | h | h
      · exact Or.inr ⟨part, by simp, h⟩
      · exact Or.inl (List.mem_singleton.mp h)
      · rcases ih h with rfl | ⟨part'', hmem, hc⟩
        · exact Or.inl rfl
        · exact Or.inr ⟨part'', List.mem_cons_of_mem part hmem, hc⟩

section PropertyNames

variable {text rest : List Char}

/-- A property name has no characters but those of names and colons. -/
theorem isNameChar_of_isPropertyName (h : isPropertyName text = true) :
    ∀ c ∈ text, isNameChar c = true ∨ c = ':' := by
  have hparts : ∀ part ∈ text.splitOn ':', isIdentifier part = true := List.all_eq_true.mp h
  intro c hc
  have htext : [':'].intercalate (text.splitOn ':') = text := List.intercalate_splitOn ':'
  rw [← htext] at hc
  rcases mem_intercalate hc with rfl | ⟨part, hpart, hc⟩
  · exact Or.inr rfl
  · exact Or.inl (isNameChar_of_isIdentifier (hparts part hpart) c hc)

/-- A property name begins like a name. -/
theorem isPropertyName_head (h : isPropertyName text = true) :
    ∃ c more, text = c :: more ∧ isNameStart c = true := by
  have hparts : ∀ part ∈ text.splitOn ':', isIdentifier part = true := List.all_eq_true.mp h
  obtain ⟨part, parts, hsplit⟩ := List.exists_cons_of_ne_nil (List.splitOn_ne_nil ':' text)
  rw [hsplit] at hparts
  obtain ⟨c, more, rfl, hc, -⟩ := isIdentifier_iff.mp (hparts part (by simp))
  have htext : [':'].intercalate (text.splitOn ':') = text := List.intercalate_splitOn ':'
  rw [hsplit] at htext
  cases parts with
  | nil => exact ⟨c, more, by simpa using htext.symm, hc⟩
  | cons part' parts =>
    rw [List.intercalate_cons_cons] at htext
    exact ⟨c, _, htext.symm, hc⟩

theorem ne_nil_of_isPropertyName (h : isPropertyName text = true) : text ≠ [] := by
  obtain ⟨c, more, rfl, -⟩ := isPropertyName_head h
  simp

/-- Characters that are none of those of names and colons are in no property name. -/
theorem not_mem_of_isPropertyName {c : Char} (h : isPropertyName text = true)
    (hc : isNameChar c = false) (hcolon : c ≠ ':') : c ∉ text := by
  intro hmem
  rcases isNameChar_of_isPropertyName h c hmem with hname | hname
  · rw [hc] at hname
    exact absurd hname (by simp)
  · exact hcolon hname

theorem not_mem_of_isIdentifier {c : Char} (h : isIdentifier text = true)
    (hc : isNameChar c = false) : c ∉ text := by
  intro hmem
  have hname := isNameChar_of_isIdentifier h c hmem
  rw [hc] at hname
  exact absurd hname (by simp)

end PropertyNames

/-! ## Well-formed paths -/

theorem upElement_toList : upElement.toList = ['.', '.'] := rfl

namespace Path

/-- Prims that go up first, where the path may, and then down through named ones. -/
def Descends (anchor : Anchor) (prims : List String) : Prop :=
  ∃ ups names, prims = List.replicate ups upElement ++ names ∧
    (∀ name ∈ names, isIdentifier name.toList = true) ∧ (ups ≠ 0 → anchor = .relative)

/-- Whether a path can have a property: it ends in a named prim, or is `.`. -/
def TakesProperty (anchor : Anchor) (prims : List String) : Prop :=
  prims.getLast?.any (· != upElement) = true ∨ anchor = .relative ∧ prims = []

/-- A path that can be written and read back. -/
structure WellFormed (p : Path) : Prop where
  empty : p.anchor = .empty → p.prims = [] ∧ p.property = none
  prims : Descends p.anchor p.prims
  property : ∀ name ∈ p.property,
    isPropertyName name.toList = true ∧ TakesProperty p.anchor p.prims

theorem descends_nil (anchor : Anchor) : Descends anchor [] :=
  ⟨0, [], rfl, nofun, fun h => absurd rfl h⟩

theorem wellFormed_empty : empty.WellFormed :=
  ⟨fun _ => ⟨rfl, rfl⟩, descends_nil _, nofun⟩

theorem wellFormed_root : root.WellFormed :=
  ⟨nofun, descends_nil _, nofun⟩

theorem wellFormed_here : here.WellFormed :=
  ⟨nofun, descends_nil _, nofun⟩

theorem eq_here_of_isHere {p : Path} (h : p.isHere = true) : p = here := by
  obtain ⟨anchor, prims, property⟩ := p
  simp only [isHere, isProperty, Bool.and_eq_true, beq_iff_eq, List.isEmpty_iff,
    Bool.not_eq_true', Option.isSome_eq_false_iff, Option.isNone_iff_eq_none] at h
  obtain ⟨⟨rfl, rfl⟩, rfl⟩ := h
  rfl

theorem isEmpty_of_isAbsolute {p : Path} (h : p.isAbsolute = true) :
    p.isEmpty = false := by
  rw [isAbsolute, beq_iff_eq] at h
  simp [isEmpty, h]

theorem Descends.append {anchor : Anchor} {prims : List String} {name : String}
    (h : Descends anchor prims) (hname : isIdentifier name.toList = true) :
    Descends anchor (prims ++ [name]) := by
  obtain ⟨ups, names, rfl, hnames, hups⟩ := h
  refine ⟨ups, names ++ [name], List.append_assoc .., fun n hn => ?_, hups⟩
  rcases List.mem_append.mp hn with hn | hn
  · exact hnames n hn
  · obtain rfl := List.mem_singleton.mp hn
    exact hname

theorem ne_upElement_of_isIdentifier {name : String} (h : isIdentifier name.toList = true) :
    name ≠ upElement := by
  rintro rfl
  exact absurd h (by decide)

/-- Where no name has come, all prims go up. -/
theorem Descends.eq_replicate {anchor : Anchor} {prims : List String} (h : Descends anchor prims)
    (hno : prims.any (· != upElement) = false) :
    prims = List.replicate prims.length upElement ∧ (prims ≠ [] → anchor = .relative) := by
  obtain ⟨ups, names, rfl, hnames, hups⟩ := h
  have hnil : names = [] := by
    rw [List.eq_nil_iff_forall_not_mem]
    intro name hname
    have := List.any_eq_false.mp hno name (List.mem_append_right _ hname)
    exact ne_upElement_of_isIdentifier (hnames name hname) (by simpa using this)
  subst hnil
  refine ⟨by simp, fun hne => hups ?_⟩
  rintro rfl
  exact hne rfl

/-- Going up once more, where no name has come. -/
theorem Descends.append_upElement {prims : List String} (h : Descends .relative prims)
    (hno : prims.any (· != upElement) = false) : Descends .relative (prims ++ [upElement]) := by
  rw [(h.eq_replicate hno).1]
  exact ⟨prims.length + 1, [], by rw [List.replicate_succ', List.append_nil], nofun, fun _ => rfl⟩

theorem takesProperty_append {anchor : Anchor} {prims : List String} {name : String}
    (hname : isIdentifier name.toList = true) : TakesProperty anchor (prims ++ [name]) := by
  left
  simp [ne_upElement_of_isIdentifier hname]

/-! ## Elements -/

/-- The elements of a written path: one for each prim, the last with the property. -/
def spelled : List String → List Char → List (List Char)
  | [], property => [property]
  | [prim], property => [prim.toList ++ property]
  | prim :: next :: prims, property => prim.toList :: spelled (next :: prims) property

section Elements

variable {p : Path} {prims names : List String} {element property : List Char}
  {elements : List (List Char)} {first : Bool}

theorem spelled_ne_nil (prims : List String) (property : List Char) :
    spelled prims property ≠ [] := by
  cases prims with
  | nil => simp [spelled]
  | cons prim prims => cases prims <;> simp [spelled]

theorem writePrims_cons_cons (prim next : String) (prims : List String) :
    writePrims (prim :: next :: prims) = prim.toList ++ '/' :: writePrims (next :: prims) := by
  simp [writePrims, List.intercalate_cons_cons]

theorem intercalate_spelled (prims : List String) (property : List Char) :
    ['/'].intercalate (spelled prims property) = writePrims prims ++ property := by
  induction prims with
  | nil => simp [spelled, writePrims]
  | cons prim prims ih =>
    cases prims with
    | nil => simp [spelled, writePrims]
    | cons next prims =>
      rw [spelled, List.intercalate_cons_of_ne_nil (spelled_ne_nil _ _), ih,
        writePrims_cons_cons]
      simp only [List.append_assoc, List.cons_append, List.nil_append]

theorem not_mem_spelled {c : Char} (hprims : ∀ prim ∈ prims, c ∉ prim.toList)
    (hproperty : c ∉ property) : ∀ part ∈ spelled prims property, c ∉ part := by
  induction prims with
  | nil => simpa [spelled] using hproperty
  | cons prim prims ih =>
    have hprim : c ∉ prim.toList := hprims prim (by simp)
    cases prims with
    | nil => simp [spelled, hprim, hproperty]
    | cons next prims =>
      intro part hpart
      rcases List.mem_cons.mp hpart with rfl | hpart
      · exact hprim
      · exact ih (fun n hn => hprims n (List.mem_cons_of_mem prim hn)) part hpart

/-- Prims before the last are elements of their own. -/
theorem spelled_append (hnames : names ≠ []) (prims : List String) (property : List Char) :
    spelled (prims ++ names) property = prims.map String.toList ++ spelled names property := by
  induction prims with
  | nil => rfl
  | cons prim prims ih =>
    obtain ⟨next, more, hmore⟩ :=
      List.exists_cons_of_ne_nil (List.append_ne_nil_of_right_ne_nil prims hnames)
    rw [List.cons_append, hmore, spelled, ← hmore, ih]
    rfl

theorem spelled_nil (hprims : prims ≠ []) : spelled prims [] = prims.map String.toList := by
  induction prims with
  | nil => exact absurd rfl hprims
  | cons prim prims ih =>
    cases prims with
    | nil => simp [spelled]
    | cons next prims => rw [spelled, ih (by simp), List.map_cons (l := next :: prims)]

theorem readElements_up {ups : Nat} :
    readElements { anchor := .relative, prims := List.replicate ups upElement } first
        (['.', '.'] :: elements) =
      readElements { anchor := .relative, prims := List.replicate (ups + 1) upElement } false
        elements := by
  have hups : ((List.replicate ups upElement).any (· != upElement)) = false := by simp
  rw [readElements, if_neg (by simp [isAbsolute]), List.replicate_succ']

/-- Reading leading `..` elements goes up. -/
theorem readElements_ups (elements : List (List Char)) (ups start : Nat) (first : Bool) :
    readElements { anchor := .relative, prims := List.replicate start upElement } first
        (List.replicate ups ['.', '.'] ++ elements) =
      readElements { anchor := .relative, prims := List.replicate (start + ups) upElement }
        (first && ups == 0) elements := by
  induction ups generalizing start first with
  | zero => simp
  | succ ups ih =>
    rw [List.replicate_succ, List.cons_append, readElements_up, ih, Nat.add_right_comm,
      Nat.add_assoc]
    simp

/-- An element that is neither empty nor `.` nor `..` names something. -/
theorem readElements_named (hne : element ≠ []) (hhere : element ≠ ['.'])
    (hup : element ≠ ['.', '.']) :
    readElements p first (element :: elements) =
      (readNamed p (first && elements.isEmpty) elements.isEmpty element >>= fun p =>
        readElements p false elements) := by
  rw [readElements]
  · exact hne
  · exact hhere
  · exact hup

/-- A name, perhaps with a property, is read as a prim and the property. -/
theorem readNamed_write {name : List Char} {property : Option String} {alone last : Bool}
    (hname : isIdentifier name = true) (hproperty : ∀ x ∈ property, isPropertyName x.toList = true)
    (hlast : property.isSome = true → last = true) (hp : p.property = none) :
    readNamed p alone last (name ++ writeProperty property) =
      .ok { p with prims := p.prims ++ [String.ofList name], property } := by
  have hrun : ∀ c ∈ name, (c != '.') = true := fun c hc => by
    simpa using ne_of_isNameChar (isNameChar_of_isIdentifier hname c hc) (by decide)
  have hstop : StopsBefore (· != '.') (writeProperty property) := by
    cases property with
    | none => exact stopsBefore_nil
    | some x => exact stopsBefore_cons (by decide)
  have hne : name.isEmpty = false := List.isEmpty_eq_false_iff.mpr (ne_nil_of_isIdentifier hname)
  rw [readNamed, takeWhile_run hrun hstop, dropWhile_run hrun hstop]
  cases property with
  | none => simp [writeProperty, hne, hname, hp]
  | some x => simp [writeProperty, hne, hname, hlast rfl, hproperty x rfl]

theorem readElements_write {property : Option String} (hne : names ≠ [])
    (hnames : ∀ name ∈ names, isIdentifier name.toList = true)
    (hproperty : ∀ x ∈ property, isPropertyName x.toList = true) (hp : p.property = none) :
    readElements p first (spelled names (writeProperty property)) =
      .ok { p with prims := p.prims ++ names, property } := by
  induction names generalizing p first with
  | nil => exact absurd rfl hne
  | cons name names ih =>
    have hname : isIdentifier name.toList = true := hnames name (by simp)
    -- No name begins with a dot, so the element is neither `.` nor `..`.
    obtain ⟨c, more, hcons, hc, -⟩ := isIdentifier_iff.mp hname
    have hdot : c ≠ '.' := ne_of_isNameChar (isNameChar_of_isNameStart hc) (by decide)
    cases names with
    | nil =>
      have hread : p.readNamed (first && true) true (name.toList ++ writeProperty property) = _ :=
        readNamed_write hname hproperty (fun _ => rfl) hp
      rw [spelled, readElements_named (by simp [hcons]) (by simp [hcons, hdot])
        (by simp [hcons, hdot]), List.isEmpty_nil, hread, ok_bind, readElements,
        String.ofList_toList]
    | cons next names =>
      have hlast : (spelled (next :: names) (writeProperty property)).isEmpty = false :=
        List.isEmpty_eq_false_iff.mpr (spelled_ne_nil _ _)
      have hread : p.readNamed (first && false) false (name.toList ++ writeProperty none) = _ :=
        readNamed_write hname nofun nofun hp
      rw [writeProperty, List.append_nil] at hread
      rw [spelled, readElements_named (by simp [hcons]) (by simp [hcons, hdot])
        (by simp [hcons, hdot]), hlast, hread, ok_bind,
        ih (by simp) (fun n hn => hnames n (List.mem_cons_of_mem name hn)) rfl]
      simp

end Elements

/-! ## Whole paths -/

/-- Written prims begin with the first of them. -/
theorem exists_writePrims_cons (prim : String) (prims : List String) :
    ∃ tail, writePrims (prim :: prims) = prim.toList ++ tail := by
  cases prims with
  | nil => exact ⟨[], by simp [writePrims]⟩
  | cons next prims => exact ⟨_, List.intercalate_cons_cons.trans (List.append_assoc _ _ _)⟩

theorem writePrims_append {prims names : List String} (hprims : prims ≠ []) (hnames : names ≠ []) :
    writePrims (prims ++ names) = writePrims prims ++ '/' :: writePrims names := by
  induction prims with
  | nil => exact absurd rfl hprims
  | cons prim prims ih =>
    cases prims with
    | nil =>
      obtain ⟨name, names, rfl⟩ := List.exists_cons_of_ne_nil hnames
      have hone : writePrims [prim] = prim.toList := by simp [writePrims]
      rw [hone]
      exact writePrims_cons_cons prim name names
    | cons next prims =>
      rw [List.cons_append, List.cons_append, writePrims_cons_cons, writePrims_cons_cons,
        ← List.cons_append, ih (by simp), List.append_assoc, List.cons_append]

theorem writePrims_ne_nil {prims : List String} (hne : prims ≠ [])
    (hprims : ∀ prim ∈ prims, prim.toList ≠ []) : writePrims prims ≠ [] := by
  obtain ⟨prim, prims, rfl⟩ := List.exists_cons_of_ne_nil hne
  have hprim : prim.toList ≠ [] := hprims prim (by simp)
  obtain ⟨tail, htail⟩ := exists_writePrims_cons prim prims
  simp [htail, hprim]

/-- A prim is `..` or a name. -/
theorem Descends.eq_or_isIdentifier {anchor : Anchor} {prims : List String}
    (h : Descends anchor prims) :
    ∀ prim ∈ prims, prim = upElement ∨ isIdentifier prim.toList = true := by
  obtain ⟨ups, names, rfl, hnames, -⟩ := h
  intro prim hprim
  rcases List.mem_append.mp hprim with hprim | hprim
  · exact Or.inl (List.eq_of_mem_replicate hprim)
  · exact Or.inr (hnames prim hprim)

theorem Descends.not_mem {anchor : Anchor} {prims : List String} {c : Char}
    (h : Descends anchor prims) (hdot : c ≠ '.') (hc : isNameChar c = false) :
    ∀ prim ∈ prims, c ∉ prim.toList := by
  intro prim hprim
  rcases h.eq_or_isIdentifier prim hprim with rfl | hname
  · simpa [upElement_toList] using hdot
  · exact not_mem_of_isIdentifier hname hc

theorem not_mem_writeProperty {c : Char} {property : Option String}
    (h : ∀ x ∈ property, isPropertyName x.toList = true) (hdot : c ≠ '.') (hcolon : c ≠ ':')
    (hc : isNameChar c = false) : c ∉ writeProperty property := by
  cases property with
  | none => simp [writeProperty]
  | some x => simp [writeProperty, hdot, not_mem_of_isPropertyName (h x rfl) hc hcolon]

/-- Reading the elements of a written path gives the path. -/
theorem readElements_spelled {p : Path} (hp : p.WellFormed) (hne : p.prims ≠ []) (first : Bool) :
    readElements { anchor := p.anchor } first (spelled p.prims (writeProperty p.property)) =
      .ok p := by
  obtain ⟨anchor, prims, property⟩ := p
  have hproperty : ∀ x ∈ property, isPropertyName x.toList = true :=
    fun x hx => (hp.property x hx).1
  obtain ⟨ups, names, hprims, hnames, hups⟩ := hp.prims
  dsimp only at hprims hups hne ⊢
  subst hprims
  by_cases hnil : names = []
  · subst hnil
    have hpos : ups ≠ 0 := by
      rintro rfl
      exact hne rfl
    obtain rfl := hups hpos
    -- A path that ends in `..` takes no property.
    have hnone : property = none := by
      cases property with
      | none => rfl
      | some x =>
        have hlast : (List.replicate ups upElement).getLast? = some upElement := by
          simp [List.getLast?_replicate, hpos]
        have htakes := (hp.property x rfl).2
        simp [TakesProperty, hpos, hlast] at htakes
    subst hnone
    have hread := readElements_ups [] ups 0 first
    rw [List.replicate_zero, Nat.zero_add] at hread
    rw [writeProperty, spelled_nil hne, List.append_nil, List.map_replicate, upElement_toList,
      ← List.append_nil (List.replicate ups ['.', '.']), hread, readElements]
  · rw [spelled_append hnil, List.map_replicate, upElement_toList]
    by_cases hpos : ups = 0
    · subst hpos
      exact readElements_write hnil hnames hproperty rfl
    · obtain rfl := hups hpos
      have hread := readElements_ups (spelled names (writeProperty property)) ups 0 first
      rw [List.replicate_zero, Nat.zero_add] at hread
      rw [hread, readElements_write hnil hnames hproperty rfl]

/-- The property of the place where a relative path starts is read as such. -/
theorem readElements_alone {x : String} (hx : isPropertyName x.toList = true) :
    readElements { anchor := .relative } true [writeProperty (some x)] =
      .ok { anchor := .relative, property := some x } := by
  obtain ⟨c, more, hcons, hc⟩ := isPropertyName_head hx
  have hdot : c ≠ '.' := ne_of_isNameChar (isNameChar_of_isNameStart hc) (by decide)
  rw [writeProperty, readElements_named (by simp) (by simp [hcons]) (by simp [hcons, hdot])]
  simp [readNamed, hx, readElements]

/-- A written path is cut at its slashes into its elements. -/
theorem splitOn_write {p : Path} (hp : p.WellFormed) :
    (writePrims p.prims ++ writeProperty p.property).splitOn '/' =
      spelled p.prims (writeProperty p.property) := by
  have hslash : ∀ part ∈ spelled p.prims (writeProperty p.property), '/' ∉ part :=
    not_mem_spelled (hp.prims.not_mem (by decide) (by decide))
      (not_mem_writeProperty (fun x hx => (hp.property x hx).1) (by decide) (by decide)
        (by decide))
  rw [← intercalate_spelled, List.splitOn_intercalate '/' hslash (spelled_ne_nil _ _)]

/-- Reading the body of a written path, which follows the slash of an absolute one, gives
the path. -/
theorem readBody_write {p : Path} (hp : p.WellFormed) (hempty : p.isEmpty = false) :
    readBody p.anchor (writePrims p.prims ++ writeProperty p.property) = .ok p := by
  by_cases hne : p.prims = []
  · have hsplit := splitOn_write hp
    obtain ⟨anchor, prims, property⟩ := p
    obtain rfl : prims = [] := hne
    cases property with
    | none => rfl
    | some x =>
      obtain ⟨hx, htakes⟩ := hp.property x rfl
      obtain rfl : anchor = .relative := by simpa [TakesProperty] using htakes
      simp only [spelled, writePrims, List.map_nil, List.intercalate_nil, List.nil_append]
        at hsplit
      rw [readBody, if_neg (by simp [writeProperty])]
      simp only [writePrims, List.map_nil, List.intercalate_nil, List.nil_append, hsplit]
      exact readElements_alone hx
  · have hprims : ∀ prim ∈ p.prims, prim.toList ≠ [] := by
      intro prim hprim
      rcases hp.prims.eq_or_isIdentifier prim hprim with rfl | hname
      · decide
      · exact ne_nil_of_isIdentifier hname
    have hbody : (writePrims p.prims ++ writeProperty p.property).isEmpty = false := by
      simp [writePrims_ne_nil hne hprims]
    rw [readBody, hbody, splitOn_write hp, readElements_spelled hp hne true]
    rfl

/-- What the prims and the property begin with, where there are any. -/
theorem writePrims_head {p : Path} (hp : p.WellFormed)
    (hsome : p.prims ≠ [] ∨ p.property ≠ none) :
    ∃ c more, writePrims p.prims ++ writeProperty p.property = c :: more ∧
      (c = '.' ∨ isNameStart c = true) := by
  obtain ⟨anchor, prims, property⟩ := p
  cases prims with
  | nil =>
    cases property with
    | none => exact absurd rfl (hsome.resolve_left (absurd rfl))
    | some x => exact ⟨'.', x.toList, by simp [writePrims, writeProperty], Or.inl rfl⟩
  | cons prim prims =>
    have hhead : ∃ c more, prim.toList = c :: more ∧ (c = '.' ∨ isNameStart c = true) := by
      rcases hp.prims.eq_or_isIdentifier prim (by simp) with rfl | hname
      · exact ⟨'.', ['.'], rfl, Or.inl rfl⟩
      · obtain ⟨c, more, hcons, hc, -⟩ := isIdentifier_iff.mp hname
        exact ⟨c, more, hcons, Or.inr hc⟩
    obtain ⟨c, more, hcons, hc⟩ := hhead
    obtain ⟨tail, htail⟩ := exists_writePrims_cons prim prims
    refine ⟨c, more ++ tail ++ writeProperty property, ?_, hc⟩
    rw [htail, hcons, List.cons_append, List.cons_append]

/-- Reading a written path gives the path. -/
theorem read_write {p : Path} (hp : p.WellFormed) : read p.write = .ok p := by
  cases hanchor : p.anchor with
  | empty =>
    obtain ⟨anchor, prims, property⟩ := p
    obtain rfl : anchor = .empty := hanchor
    obtain ⟨rfl, rfl⟩ : prims = [] ∧ property = none := hp.empty rfl
    rfl
  | absolute =>
    have hbody := readBody_write hp (by simp [isEmpty, hanchor])
    rw [hanchor] at hbody
    simp only [write, hanchor, List.cons_append, read, hbody]
  | relative =>
    by_cases hhere : p.isHere = true
    · obtain rfl := eq_here_of_isHere hhere
      rfl
    · have hbody := readBody_write hp (by simp [isEmpty, hanchor])
      have hsome : p.prims ≠ [] ∨ p.property ≠ none := by
        by_contra hnone
        rw [not_or, not_not, not_not] at hnone
        exact hhere (by simp [isHere, isProperty, hanchor, hnone])
      obtain ⟨c, more, hcons, hc⟩ := writePrims_head hp hsome
      have hslash : c ≠ '/' := by
        rcases hc with rfl | hc
        · decide
        · exact ne_of_isNameChar (isNameChar_of_isNameStart hc) (by decide)
      rw [hanchor] at hbody
      simp only [write, hanchor, if_neg hhere]
      rw [hcons] at hbody ⊢
      rw [read]
      · exact hbody
      · simp
      · exact fun body heq => hslash (List.cons.inj heq).1

end Path

end PathSets
