import PathSets.Proofs.ComponentText

/-!
# Reading patterns back

A pattern is `WellFormed` if its base is a path that can be read back and its components
continue it.  The written form of such a pattern is read back (`Pattern.read_write`).

The base comes first: leading `..` elements, which are read by `readLeading`, and then
names, which are read as elements and go into the base because there are no components
yet.  What follows the names, the property of the base or the components, is its tail.
-/

namespace PathSets.Pattern

/-- A pattern that can be written and read back. -/
structure WellFormed (p : Pattern) : Prop where
  base : p.base.WellFormed
  notEmpty : p.base.isEmpty = false
  property : p.base.isProperty = true → p.components = [] ∧ p.isProperty = true
  components : p.base.isProperty = false →
    Continues p.isProperty { base := p.base } p.components

variable {p q : Pattern} {first afterSlash : Bool} {limit : Nat} {text rest : List Char}
  {anchor : Anchor} {prims names : List String}

/-- The pattern of the prims below an anchor, without components. -/
def ofPrims (anchor : Anchor) (prims : List String) : Pattern :=
  { base := { anchor, prims } }

theorem isEmpty_ofPrims (hanchor : anchor ≠ .empty) :
    (ofPrims anchor prims).base.isEmpty = false := by
  cases anchor with
  | empty => exact absurd rfl hanchor
  | relative => rfl
  | absolute => rfl

/-- A plain name has no predicate to separate. -/
theorem splitPredicate_plain {name : String} {endsProperty : Bool}
    (h : (Component.named name none).WellFormed endsProperty) (rest : List Char) :
    splitPredicate name.toList rest = .ok (name, none) := by
  have hwrite : (Component.named name none).write = name.toList := by
    simp [Component.write, Component.nameText, Component.condition?]
  exact hwrite ▸ splitPredicate_write h rest

/-! ## Names -/

/-- Reading a name where there are no components goes down to the child. -/
theorem readElements_name {name : String} (hname : isIdentifier name.toList = true)
    (hanchor : anchor ≠ .empty) (hrest : BoundsElement rest) :
    readElements (limit + 1) (ofPrims anchor prims) afterSlash (name.toList ++ rest) =
      readAfter limit (ofPrims anchor (prims ++ [name])) rest := by
  have hc : (Component.named name none).WellFormed false := ⟨hname, nofun⟩
  have hbase : (ofPrims anchor prims).base.isEmpty = false := isEmpty_ofPrims hanchor
  have hup : name ≠ upElement := Path.ne_upElement_of_isIdentifier hname
  have hchild : (ofPrims anchor prims).base.child name =
      .ok { anchor, prims := prims ++ [name] } := by
    rw [Path.child, hbase]
    simp [ofPrims, Path.isProperty, hup, hname]
  have happend : (ofPrims anchor prims).appendChild name none =
      .ok (ofPrims anchor (prims ++ [name])) := by
    rw [appendChild]
    simp only [childShape?_of_isIdentifier hname, grounded_of_not_isEmpty hbase, hchild,
      isEmpty_eq_false (ne_nil_of_isIdentifier hname)]
    rfl
  rw [readElements_grouped (grouped_of_isIdentifier hname) (ne_nil_of_isIdentifier hname) hrest,
    splitPredicate_plain hc, ok_bind]
  simp only [happend, accept, ok_bind]

/-- Written names begin with no slash and no dot. -/
theorem head_writePrims_ne (rest : List Char) (hne : names ≠ [])
    (hnames : ∀ name ∈ names, isIdentifier name.toList = true) :
    Path.writePrims names ++ rest ≠ [] ∧
      ∀ d ∈ (Path.writePrims names ++ rest).head?, d ≠ '/' ∧ d ≠ '.' := by
  obtain ⟨name, names, rfl⟩ := List.exists_cons_of_ne_nil hne
  obtain ⟨c, more, hcons, hc, -⟩ := isIdentifier_iff.mp (hnames name (by simp))
  obtain ⟨tail, htail⟩ := Path.exists_writePrims_cons name names
  have hname : isNameChar c = true := isNameChar_of_isNameStart hc
  rw [htail, hcons]
  refine ⟨by simp, fun d hd => ?_⟩
  obtain rfl : c = d := by simpa using hd
  exact ⟨ne_of_isNameChar hname (by decide), ne_of_isNameChar hname (by decide)⟩

/-- Reading names goes down through them. -/
theorem readElements_names (hne : names ≠ [])
    (hnames : ∀ name ∈ names, isIdentifier name.toList = true) (hanchor : anchor ≠ .empty)
    (hrest : BoundsElement rest) (hlimit : (Path.writePrims names ++ rest).length ≤ limit) :
    ∃ limit' ≥ rest.length,
      readElements limit (ofPrims anchor prims) afterSlash (Path.writePrims names ++ rest) =
        readAfter limit' (ofPrims anchor (prims ++ names)) rest := by
  induction names generalizing prims limit afterSlash with
  | nil => exact absurd rfl hne
  | cons name names ih =>
    have hname : isIdentifier name.toList = true := hnames name (by simp)
    have hpos : 0 < name.toList.length := List.length_pos_iff.mpr (ne_nil_of_isIdentifier hname)
    cases names with
    | nil =>
      have hwrite : Path.writePrims [name] = name.toList := by simp [Path.writePrims]
      rw [hwrite] at hlimit ⊢
      rw [List.length_append] at hlimit
      obtain ⟨limit, rfl⟩ := Nat.exists_eq_add_of_le' (Nat.le_trans (by omega) hlimit : 1 ≤ limit)
      exact ⟨limit, by omega, readElements_name hname hanchor hrest⟩
    | cons next names =>
      have hnext : isIdentifier next.toList = true := hnames next (by simp)
      have hhead := head_writePrims_ne rest (List.cons_ne_nil next names)
        (fun n hn => hnames n (List.mem_cons_of_mem name hn))
      rw [Path.writePrims_cons_cons, List.append_assoc, List.cons_append] at hlimit ⊢
      rw [List.length_append, List.length_cons] at hlimit
      obtain ⟨limit, rfl⟩ := Nat.exists_eq_add_of_le' (Nat.le_trans (by omega) hlimit : 1 ≤ limit)
      have hlimit' : (Path.writePrims (next :: names) ++ rest).length ≤ limit := by omega
      obtain ⟨limit', hrest', hread⟩ : ∃ limit' ≥ rest.length,
          readElements limit (ofPrims anchor (prims ++ [name])) true
              (Path.writePrims (next :: names) ++ rest) =
            readAfter limit' (ofPrims anchor (prims ++ [name] ++ next :: names)) rest :=
        ih (by simp) (fun n hn => hnames n (List.mem_cons_of_mem name hn)) hlimit'
      refine ⟨limit', hrest', ?_⟩
      rw [readElements_name hname hanchor (stopsBefore_cons (by decide)),
        readAfter_slash hhead.1 fun heq => (hhead.2 '/' heq).1 rfl, hread, List.append_assoc]
      rfl

/-! ## What follows the names of the base -/

/-- The written form of what follows the prims of the base. -/
def writeTail (p : Pattern) : List Char :=
  Path.writeProperty p.base.property ++ writeComponents p.isProperty ['/'] p.components

/-- Reading a plain property where there are no components gives it to the base. -/
theorem readProperty_base {name : String} (hname : isPropertyName name.toList = true)
    (hanchor : anchor ≠ .empty) (htakes : Path.TakesProperty anchor prims) :
    readProperty (ofPrims anchor prims) name.toList =
      .ok { base := { anchor, prims, property := some name }, isProperty := true } := by
  have hc : (Component.named name none).WellFormed true := ⟨hname, nofun⟩
  have hsplit : splitPredicate name.toList [] = .ok (name, none) := splitPredicate_plain hc []
  have hp : (ofPrims anchor prims).TakesProperty := ⟨rfl, rfl, fun _ => htakes⟩
  have hliteral := propertyShape?_of_isPropertyName hname
  have hcan := hp.canAppendProperty hliteral
  have hempty : name.isEmpty = false := isEmpty_eq_false (ne_nil_of_isPropertyName hname)
  have hbase : (ofPrims anchor prims).base.isEmpty = false := isEmpty_ofPrims hanchor
  have hkind : ((ofPrims anchor prims).base.isPrim || (ofPrims anchor prims).base.isHere) =
      true := by
    rcases htakes with hlast | ⟨rfl, rfl⟩
    · rw [Bool.or_eq_true]
      exact Or.inl (by simpa [ofPrims, Path.isPrim, Path.isProperty] using hlast)
    · rfl
  have hproperty : (ofPrims anchor prims).base.withProperty name =
      .ok { anchor, prims, property := some name } := by
    rw [Path.withProperty, hkind, hname]
    rfl
  have happend : (ofPrims anchor prims).appendProperty name none =
      .ok { base := { anchor, prims, property := some name }, isProperty := true } := by
    rw [appendProperty, hliteral, hcan, grounded_of_not_isEmpty hbase,
      closed_of_not_hasTrailingStretch hp.stretch]
    simp only [hproperty]
    rfl
  simp only [readProperty, splitElement_grouped (grouped_of_isPropertyName hname),
    List.isEmpty_nil, hsplit, ok_bind, hempty, hcan, happend]
  rfl

theorem WellFormed.anchor_ne_empty (hp : p.WellFormed) : p.base.anchor ≠ .empty := by
  have hempty := hp.notEmpty
  intro heq
  simp [Path.isEmpty, heq] at hempty

/-- Without a property the base is all prims. -/
theorem ofPrims_base (hproperty : p.base.property = none) :
    ofPrims p.base.anchor p.base.prims = { base := p.base } := by
  rw [ofPrims, ← hproperty]

/-- Reading the tail after the prims of the base gives the pattern. -/
theorem WellFormed.readAfter_tail (hp : p.WellFormed) (hlimit : p.writeTail.length ≤ limit) :
    readAfter limit (ofPrims p.base.anchor p.base.prims) p.writeTail = .ok p := by
  cases hproperty : p.base.property with
  | none =>
    have hcontinues := hp.components (by simp [Path.isProperty, hproperty])
    have htail : p.writeTail = writeComponents p.isProperty ['/'] p.components := by
      simp [writeTail, hproperty, Path.writeProperty]
    rw [htail] at hlimit ⊢
    rw [ofPrims_base hproperty, (hcontinues.read_write rfl hp.notEmpty).1 limit hlimit]
    rfl
  | some name =>
    obtain ⟨hcomponents, hisProperty⟩ := hp.property (by simp [Path.isProperty, hproperty])
    obtain ⟨hname, htakes⟩ := hp.base.property name hproperty
    have htail : p.writeTail = '.' :: name.toList := by
      simp [writeTail, hproperty, hcomponents, Path.writeProperty, writeComponents]
    rw [htail, readAfter, readProperty_base hname hp.anchor_ne_empty htakes]
    obtain ⟨⟨anchor, prims, property⟩, components, isProperty⟩ := p
    dsimp only at hproperty hcomponents hisProperty
    subst hproperty hcomponents hisProperty
    rfl

theorem WellFormed.boundsElement_tail (hp : p.WellFormed) : BoundsElement p.writeTail := by
  cases hproperty : p.base.property with
  | none =>
    have hcontinues := hp.components (by simp [Path.isProperty, hproperty])
    have htail : p.writeTail = writeComponents p.isProperty ['/'] p.components := by
      simp [writeTail, hproperty, Path.writeProperty]
    rw [htail]
    exact hcontinues.boundsElement
  | some name =>
    rw [writeTail, hproperty]
    exact stopsBefore_cons (by decide)

/-- Reading the names at the end of the base, and what follows them, gives the pattern. -/
theorem WellFormed.readElements_names (hp : p.WellFormed) (hprims : p.base.prims = prims ++ names)
    (hne : names ≠ []) (hnames : ∀ name ∈ names, isIdentifier name.toList = true)
    (hlimit : (Path.writePrims names ++ p.writeTail).length ≤ limit) :
    readElements limit (ofPrims p.base.anchor prims) afterSlash
      (Path.writePrims names ++ p.writeTail) = .ok p := by
  obtain ⟨limit', hlimit', hread⟩ :=
    Pattern.readElements_names hne hnames hp.anchor_ne_empty hp.boundsElement_tail hlimit
  rw [hread, ← hprims, hp.readAfter_tail hlimit']

/-! ## Leading elements -/

theorem readLeading_of_head (hne : text ≠ []) (hdot : text.head? ≠ some '.') :
    readLeading (limit + 1) p first text = readElements text.length p (!first) text := by
  obtain ⟨c, text, rfl⟩ := List.exists_cons_of_ne_nil hne
  have hc : ¬ '.' = c := fun heq => hdot (by rw [heq]; rfl)
  simp [readLeading, after?, hc]

/-- Appending `..` to a base that has only gone up goes up once more. -/
theorem appendChild_up (ups : Nat) :
    (ofPrims .relative (List.replicate ups upElement)).appendChild upElement none =
      .ok (ofPrims .relative (List.replicate (ups + 1) upElement)) := by
  have hlast : (List.replicate ups upElement).getLast?.any (· != upElement) = false := by
    cases ups with
    | zero => rfl
    | succ ups => simp [List.getLast?_replicate]
  have hchild : (ofPrims .relative (List.replicate ups upElement)).base.child upElement =
      .ok { anchor := .relative, prims := List.replicate (ups + 1) upElement } := by
    simp [ofPrims, Path.child, Path.isEmpty, Path.isProperty, hlast, List.replicate_succ']
  have hshape : childShape? upElement = some .literal := by decide
  have hempty : upElement.isEmpty = false := by decide
  have hgrounded : (ofPrims .relative (List.replicate ups upElement)).grounded =
      ofPrims .relative (List.replicate ups upElement) := rfl
  rw [appendChild]
  simp only [hshape, hgrounded, hempty, hchild]
  rfl

/-- Reading a leading `..` goes up. -/
theorem readLeading_up {ups : Nat} (hrest : StopsBefore (· != '/') rest) :
    readLeading (limit + 1) (ofPrims .relative (List.replicate ups upElement)) first
        ('.' :: '.' :: rest) =
      readAfterLeading (fun p => readLeading limit p false)
        (ofPrims .relative (List.replicate (ups + 1) upElement)) rest := by
  have hends : endsElement rest = true := by
    cases rest with
    | nil => rfl
    | cons c rest => simpa [endsElement] using hrest c rfl
  simp [readLeading, after?, hends, appendChild_up, accept]

theorem readAfterLeading_slash {next : Pattern → List Char → Reading PatternFault Pattern}
    (hslash : text.head? ≠ some '/') : readAfterLeading next p ('/' :: text) = next p text := by
  cases text with
  | nil => rfl
  | cons c text =>
    have hc : c ≠ '/' := by simpa using hslash
    rw [readAfterLeading]
    rintro rest heq
    exact hc (List.cons.inj heq).1

/-- Reading leading `..` elements goes up through them. -/
theorem readLeading_ups (ups start : Nat) (hrest : StopsBefore (· != '/') rest)
    (hlimit : (Path.writePrims (List.replicate (ups + 1) upElement) ++ rest).length ≤ limit) :
    ∃ limit' ≥ rest.length,
      readLeading limit (ofPrims .relative (List.replicate start upElement)) first
          (Path.writePrims (List.replicate (ups + 1) upElement) ++ rest) =
        readAfterLeading (fun p => readLeading limit' p false)
          (ofPrims .relative (List.replicate (start + ups + 1) upElement)) rest := by
  induction ups generalizing start limit first with
  | zero =>
    have hwrite : Path.writePrims (List.replicate 1 upElement) = ['.', '.'] := by decide
    rw [Nat.zero_add, hwrite] at hlimit ⊢
    have hlength : rest.length + 1 ≤ limit := by
      simp only [List.length_append, List.length_cons] at hlimit
      omega
    obtain ⟨limit, rfl⟩ := Nat.exists_eq_add_of_le' (Nat.le_trans (by omega) hlength : 1 ≤ limit)
    exact ⟨limit, Nat.le_of_succ_le_succ hlength, readLeading_up hrest⟩
  | succ ups ih =>
    have hwrite : Path.writePrims (List.replicate (ups + 1 + 1) upElement) ++ rest =
        '.' :: '.' :: '/' :: (Path.writePrims (List.replicate (ups + 1) upElement) ++ rest) := by
      rw [List.replicate_succ, List.replicate_succ, Path.writePrims_cons_cons, upElement_toList]
      rfl
    rw [hwrite] at hlimit ⊢
    rw [List.length_cons, List.length_cons, List.length_cons] at hlimit
    obtain ⟨limit, rfl⟩ := Nat.exists_eq_add_of_le' (Nat.le_trans (by omega) hlimit : 1 ≤ limit)
    have hlimit' : (Path.writePrims (List.replicate (ups + 1) upElement) ++ rest).length ≤
        limit := by omega
    obtain ⟨limit', hrest', hread⟩ : ∃ limit' ≥ rest.length,
        readLeading limit (ofPrims .relative (List.replicate (start + 1) upElement)) false
            (Path.writePrims (List.replicate (ups + 1) upElement) ++ rest) =
          readAfterLeading (fun p => readLeading limit' p false)
            (ofPrims .relative (List.replicate (start + 1 + ups + 1) upElement)) rest :=
      ih (start + 1) hlimit'
    have hslash : (Path.writePrims (List.replicate (ups + 1) upElement) ++ rest).head? ≠
        some '/' := by
      obtain ⟨tail, htail⟩ := Path.exists_writePrims_cons upElement (List.replicate ups upElement)
      rw [List.replicate_succ, htail, upElement_toList]
      simp
    refine ⟨limit', hrest', ?_⟩
    rw [readLeading_up (stopsBefore_cons (by decide)), readAfterLeading_slash hslash, hread,
      Nat.add_right_comm start 1 ups, Nat.add_assoc start ups 1]

/-! ## Whole patterns -/

/-- A pattern whose base goes up and no further is read back. -/
theorem WellFormed.readAfterLeading_tail {ups : Nat} (hp : p.WellFormed)
    (hanchor : p.base.anchor = .relative)
    (hprims : p.base.prims = List.replicate (ups + 1) upElement)
    (hlimit : p.writeTail.length ≤ limit) :
    StopsBefore (· != '/') p.writeTail ∧
      readAfterLeading (fun p => readLeading limit p false)
        (ofPrims .relative (List.replicate (ups + 1) upElement)) p.writeTail = .ok p := by
  have hnot : ¬ Path.TakesProperty p.base.anchor p.base.prims := by
    rw [hprims]
    rintro (hlast | ⟨-, hnil⟩)
    · simp [List.getLast?_replicate] at hlast
    · simp [List.replicate_succ] at hnil
  have hproperty : p.base.property = none := by
    by_contra hsome
    obtain ⟨name, hname⟩ := Option.ne_none_iff_exists'.mp hsome
    exact hnot (hp.base.property name hname).2
  have hcontinues := hp.components (by simp [Path.isProperty, hproperty])
  have htail : p.writeTail = writeComponents p.isProperty ['/'] p.components := by
    simp [writeTail, hproperty, Path.writeProperty]
  have hbase : ofPrims .relative (List.replicate (ups + 1) upElement) = { base := p.base } := by
    rw [← hanchor, ← hprims, ofPrims_base hproperty]
  obtain ⟨base, components, isProperty⟩ := p
  dsimp only at hcontinues htail hbase hnot
  rw [htail] at hlimit ⊢
  rw [hbase]
  cases hcontinues with
  | done hlast =>
    subst hlast
    exact ⟨stopsBefore_nil, rfl⟩
  | @stretch _ components hstretch h =>
    obtain ⟨-, hread⟩ := (h.read_write rfl hp.notEmpty).2 (hasTrailingStretch_add rfl .stretch)
    have happend : appendStretch { base } = add { base } .stretch :=
      appendStretch_eq_add rfl hp.notEmpty hstretch
    refine ⟨stopsBefore_cons (by decide), ?_⟩
    rw [writeComponents, readAfterLeading, happend, hread _ (Nat.le_refl _)]
    simp [add]
  | @element _ c components hc hplain hlast h =>
    have hhead := head_write_ne hc (writeComponents isProperty ['/'] components)
    rw [writeComponents_element hc hlast, List.append_assoc, List.singleton_append] at hlimit ⊢
    rw [List.length_cons] at hlimit
    obtain ⟨limit, rfl⟩ := Nat.exists_eq_add_of_le' (Nat.le_trans (by omega) hlimit : 1 ≤ limit)
    refine ⟨stopsBefore_cons (by decide), ?_⟩
    rw [readAfterLeading_slash fun heq => (hhead '/' heq).1 rfl,
      readLeading_of_head (by simp [hc.write_ne_nil]) fun heq => (hhead '.' heq).2 rfl]
    exact h.readElements_write hc hplain rfl hp.notEmpty (Nat.le_refl _)
  | property _ _ _ htakes => exact absurd (htakes.base rfl) hnot

/-- A text that begins with no slash is read from `.`. -/
theorem read_of_head (hne : text ≠ []) (hslash : text.head? ≠ some '/') :
    read text = readLeading text.length { base := .here } true text := by
  obtain ⟨c, text, rfl⟩ := List.exists_cons_of_ne_nil hne
  have hc : c ≠ '/' := by simpa using hslash
  rw [read]
  · rfl
  · simp
  · exact fun rest heq => hc (List.cons.inj heq).1
  · exact fun rest heq => hc (List.cons.inj heq).1

/-- A text that begins with a single slash is read from the root. -/
theorem read_slash (hslash : text.head? ≠ some '/') :
    read ('/' :: text) = readElements text.length { base := .root } false text := by
  cases text with
  | nil => rfl
  | cons c text =>
    have hc : c ≠ '/' := by simpa using hslash
    rw [read]
    · rfl
    · exact fun rest heq => hc (List.cons.inj heq).1

/-- A text that begins with a single dot and no separator after it is a property of `.`. -/
theorem read_dot (hne : text ≠ []) (hhead : ∀ d ∈ text.head?, d ≠ '/' ∧ d ≠ '.') :
    read ('.' :: text) = readProperty { base := .here } text := by
  obtain ⟨c, text, rfl⟩ := List.exists_cons_of_ne_nil hne
  obtain ⟨hslash, hdot⟩ := hhead c rfl
  have hsplit : splitElement ('.' :: c :: text) = ([], '.' :: c :: text) :=
    splitElement_append .nil (stopsBefore_cons (by decide))
  have hread : readElements (c :: text).length.succ { base := .here } false ('.' :: c :: text) =
      readProperty { base := .here } (c :: text) := by
    rw [readElements_succ (by simp), hsplit]
    rfl
  have hends : endsElement (c :: text) = false := by simp [endsElement, hslash]
  have hdots : after? ['.', '.'] ('.' :: c :: text) = none := by simp [after?, Ne.symm hdot]
  have hone : after? ['.'] ('.' :: c :: text) = some (c :: text) := by simp [after?]
  rw [read_of_head (by simp) (by simp), List.length_cons, readLeading]
  · simp only [hdots, hone, hends, Bool.false_eq_true, if_false, Bool.not_true]
    exact hread
  · simp

/-- A pattern that starts at the root is read back. -/
theorem Continues.read_root {isProperty : Bool} {components : List Component}
    (h : Continues isProperty { base := .root } components) :
    read (write { base := .root, components, isProperty }) =
      .ok { base := .root, components, isProperty } := by
  cases h with
  | done hlast =>
    subst hlast
    rfl
  | @stretch _ components hp h =>
    obtain ⟨-, hread⟩ := (h.read_write rfl rfl).2 rfl
    have hwrite : write { base := .root, components := .stretch :: components, isProperty } =
        '/' :: '/' :: writeComponents isProperty [] components := rfl
    rw [hwrite, Pattern.read]
    exact hread _ (Nat.le_refl _)
  | @element _ c components hc hplain hlast h =>
    have hhead := head_write_ne hc (writeComponents isProperty ['/'] components)
    have hwrite : write { base := .root, components := c :: components, isProperty } =
        '/' :: (c.write ++ writeComponents isProperty ['/'] components) := by
      have hcomponents : writeComponents isProperty ['/'] (c :: components) =
          ['/'] ++ c.write ++ writeComponents isProperty ['/'] components :=
        writeComponents_element hc hlast
      exact hcomponents.trans (List.append_assoc _ _ _)
    rw [hwrite, read_slash fun heq => (hhead '/' heq).1 rfl]
    exact h.readElements_write hc hplain rfl rfl (Nat.le_refl _)
  | property _ _ _ htakes =>
    have htakes' := htakes.base rfl
    simp [Path.TakesProperty, Path.root] at htakes'

/-- A base of `.` is written only where nothing or a stretch follows. -/
theorem write_here {isProperty : Bool} {components : List Component} :
    write { base := .here, components, isProperty } =
      (if components.head?.all (·.isStretch) then ['.'] else []) ++
        writeComponents isProperty [] components := rfl

/-- A pattern that starts at `.` is read back. -/
theorem Continues.read_here {isProperty : Bool} {components : List Component}
    (h : Continues isProperty { base := .here } components) :
    read (write { base := .here, components, isProperty }) =
      .ok { base := .here, components, isProperty } := by
  rw [write_here]
  cases h with
  | done hlast =>
    subst hlast
    rfl
  | @stretch _ components hp h =>
    obtain ⟨-, hread⟩ := (h.read_write rfl rfl).2 rfl
    exact hread _ (Nat.le_refl _)
  | @element _ c components hc hplain hlast h =>
    have hhead := head_write_ne hc (writeComponents isProperty ['/'] components)
    have hstretch : ((c :: components).head?.all (·.isStretch)) = false := by
      simp [hc.isStretch]
    have hne : c.write ++ writeComponents isProperty ['/'] components ≠ [] := by
      simp [hc.write_ne_nil]
    rw [hstretch, writeComponents_element hc hlast, List.nil_append]
    obtain ⟨limit, hlimit⟩ := Nat.exists_eq_add_of_lt (List.length_pos_iff.mpr hne)
    simp only [Bool.false_eq_true, if_false, List.nil_append]
    rw [read_of_head hne fun heq => (hhead '/' heq).1 rfl, hlimit,
      readLeading_of_head hne fun heq => (hhead '.' heq).2 rfl]
    exact h.readElements_write hc hplain rfl rfl (Nat.le_refl _)
  | @property _ c hlast hc hplain htakes =>
    subst hlast
    have hhead := head_write_ne hc []
    rw [List.append_nil] at hhead
    have hstretch : (([c] : List Component).head?.all (·.isStretch)) = false := by
      simp [hc.isStretch]
    rw [hstretch, writeComponents_property hc]
    simp only [Bool.false_eq_true, if_false, List.nil_append]
    rw [read_dot hc.write_ne_nil hhead, readProperty_write hc htakes rfl hplain]
    rfl

/-- A base with prims is written as any path. -/
theorem WellFormed.write_prims (hp : p.WellFormed) (hne : p.base.prims ≠ []) :
    p.write = (if p.base.isAbsolute then ['/'] else []) ++
      (Path.writePrims p.base.prims ++ p.writeTail) := by
  have hroot : p.base.isRoot = false := by simp [Path.isRoot, hne]
  have hhere : p.base.isHere = false := by simp [Path.isHere, hne]
  rw [write, writeBase, hroot, hhere, Path.write, writeTail]
  cases hanchor : p.base.anchor with
  | empty => exact absurd hanchor hp.anchor_ne_empty
  | absolute => simp [Path.isAbsolute, hanchor]
  | relative => simp [Path.isAbsolute, hanchor, hhere]

/-- Written prims and what follows them begin with no slash. -/
theorem WellFormed.head_prims (hp : p.WellFormed) (hne : p.base.prims ≠ []) :
    Path.writePrims p.base.prims ++ p.writeTail ≠ [] ∧
      (Path.writePrims p.base.prims ++ p.writeTail).head? ≠ some '/' := by
  obtain ⟨c, more, hcons, hc⟩ := Path.writePrims_head hp.base (Or.inl hne)
  have hslash : c ≠ '/' := by
    rcases hc with rfl | hc
    · decide
    · exact ne_of_isNameChar (isNameChar_of_isNameStart hc) (by decide)
  rw [writeTail, ← List.append_assoc, hcons]
  simpa using hslash

/-- A pattern whose base goes down from the root is read back. -/
theorem WellFormed.read_absolute (hp : p.WellFormed) (hanchor : p.base.anchor = .absolute)
    (hne : p.base.prims ≠ []) : read p.write = .ok p := by
  have hnames : ∀ name ∈ p.base.prims, isIdentifier name.toList = true := by
    obtain ⟨ups, names, hprims, hnames, hups⟩ := hp.base.prims
    obtain rfl : ups = 0 := by
      by_contra hne
      exact absurd (hanchor.symm.trans (hups hne)) (by simp)
    rw [List.replicate_zero, List.nil_append] at hprims
    rwa [hprims]
  have habsolute : p.base.isAbsolute = true := by simp [Path.isAbsolute, hanchor]
  have hread : readElements (Path.writePrims p.base.prims ++ p.writeTail).length
      (ofPrims p.base.anchor []) false (Path.writePrims p.base.prims ++ p.writeTail) = .ok p :=
    hp.readElements_names (List.nil_append _).symm hne hnames (Nat.le_refl _)
  rw [hanchor] at hread
  rw [hp.write_prims hne, if_pos habsolute, List.singleton_append,
    read_slash (hp.head_prims hne).2]
  exact hread

/-- Behind the leading `..` elements of a base, the rest of the pattern is read back. -/
theorem WellFormed.readAfterLeading_rest {ups : Nat} (hp : p.WellFormed)
    (hanchor : p.base.anchor = .relative)
    (hprims : p.base.prims = List.replicate (ups + 1) upElement ++ names)
    (hnames : ∀ name ∈ names, isIdentifier name.toList = true) :
    ∃ rest, StopsBefore (· != '/') rest ∧
      Path.writePrims p.base.prims ++ p.writeTail =
        Path.writePrims (List.replicate (ups + 1) upElement) ++ rest ∧
      ∀ limit, rest.length ≤ limit →
        readAfterLeading (fun p => readLeading limit p false)
          (ofPrims .relative (List.replicate (ups + 1) upElement)) rest = .ok p := by
  by_cases hnil : names = []
  · rw [hnil, List.append_nil] at hprims
    rw [hprims]
    refine ⟨p.writeTail, ?_, rfl, fun limit hlimit => ?_⟩
    · exact (hp.readAfterLeading_tail hanchor hprims (Nat.le_refl _)).1
    · exact (hp.readAfterLeading_tail hanchor hprims hlimit).2
  · have hhead := head_writePrims_ne p.writeTail hnil hnames
    refine ⟨'/' :: (Path.writePrims names ++ p.writeTail), stopsBefore_cons (by decide), ?_,
      fun limit hlimit => ?_⟩
    · rw [hprims, Path.writePrims_append (by simp) hnil, List.append_assoc, List.cons_append]
    · rw [List.length_cons] at hlimit
      obtain ⟨limit, rfl⟩ := Nat.exists_eq_add_of_le' (Nat.le_trans (by omega) hlimit : 1 ≤ limit)
      rw [readAfterLeading_slash fun heq => (hhead.2 '/' heq).1 rfl,
        readLeading_of_head hhead.1 fun heq => (hhead.2 '.' heq).2 rfl, ← hanchor]
      exact hp.readElements_names hprims hnil hnames (Nat.le_refl _)

/-- A pattern with prims in its base is read back from `.`, also where that is not the
beginning of the text. -/
theorem WellFormed.readLeading_prims (hp : p.WellFormed) (hanchor : p.base.anchor = .relative)
    (hne : p.base.prims ≠ [])
    (hlimit : (Path.writePrims p.base.prims ++ p.writeTail).length ≤ limit) :
    readLeading limit { base := .here } first (Path.writePrims p.base.prims ++ p.writeTail) =
      .ok p := by
  obtain ⟨ups, names, hprims, hnames, -⟩ := hp.base.prims
  cases ups with
  | zero =>
    rw [List.replicate_zero, List.nil_append] at hprims
    subst hprims
    have hhead := head_writePrims_ne p.writeTail hne hnames
    have hpos := List.length_pos_iff.mpr hhead.1
    obtain ⟨limit, rfl⟩ := Nat.exists_eq_add_of_le' (Nat.le_trans hpos hlimit : 1 ≤ limit)
    have hread : readElements (Path.writePrims p.base.prims ++ p.writeTail).length
        (ofPrims p.base.anchor []) (!first) (Path.writePrims p.base.prims ++ p.writeTail) = .ok p :=
      hp.readElements_names (List.nil_append _).symm hne hnames (Nat.le_refl _)
    rw [hanchor] at hread
    rw [readLeading_of_head hhead.1 fun heq => (hhead.2 '.' heq).2 rfl]
    exact hread
  | succ ups =>
    obtain ⟨rest, hrest, htext, hread⟩ := hp.readAfterLeading_rest hanchor hprims hnames
    rw [htext] at hlimit ⊢
    obtain ⟨limit', hlimit', hups⟩ :
        ∃ limit' ≥ rest.length,
          readLeading limit (ofPrims .relative (List.replicate 0 upElement)) first _ = _ :=
      readLeading_ups ups 0 hrest hlimit
    rw [Nat.zero_add] at hups
    exact hups.trans (hread limit' hlimit')

/-- A pattern with prims in its base is read back. -/
theorem WellFormed.read_prims (hp : p.WellFormed) (hne : p.base.prims ≠ []) :
    read p.write = .ok p := by
  cases hanchor : p.base.anchor with
  | empty => exact absurd hanchor hp.anchor_ne_empty
  | absolute => exact hp.read_absolute hanchor hne
  | relative =>
    have habsolute : ¬ p.base.isAbsolute = true := by simp [Path.isAbsolute, hanchor]
    obtain ⟨hwrite, hslash⟩ := hp.head_prims hne
    rw [hp.write_prims hne, if_neg habsolute, List.nil_append, read_of_head hwrite hslash]
    exact hp.readLeading_prims hanchor hne (Nat.le_refl _)

/-- Reading a written pattern gives the pattern. -/
theorem read_write (hp : p.WellFormed) : read p.write = .ok p := by
  by_cases hne : p.base.prims = []
  · obtain ⟨⟨anchor, prims, property⟩, components, isProperty⟩ := p
    obtain rfl : prims = [] := hne
    cases property with
    | none =>
      have hcontinues := hp.components rfl
      cases anchor with
      | empty => exact absurd rfl hp.anchor_ne_empty
      | absolute => exact hcontinues.read_root
      | relative => exact hcontinues.read_here
    | some name =>
      obtain ⟨rfl, rfl⟩ : components = [] ∧ isProperty = true := hp.property rfl
      obtain ⟨hname, htakes⟩ := hp.base.property name rfl
      obtain rfl : anchor = .relative := by simpa [Path.TakesProperty] using htakes
      obtain ⟨c, more, hcons, hc⟩ := isPropertyName_head hname
      have hchar : isNameChar c = true := isNameChar_of_isNameStart hc
      have hhead : ∀ d ∈ name.toList.head?, d ≠ '/' ∧ d ≠ '.' := by
        intro d hd
        obtain rfl : c = d := by simpa [hcons] using hd
        exact ⟨ne_of_isNameChar hchar (by decide), ne_of_isNameChar hchar (by decide)⟩
      have hwrite : write ⟨⟨.relative, [], some name⟩, [], true⟩ = '.' :: name.toList := by
        simp [write, writeBase, writeComponents, Path.write, Path.isRoot, Path.isHere,
          Path.isAbsolute, Path.isProperty, Path.writePrims, Path.writeProperty]
      rw [hwrite, read_dot (ne_nil_of_isPropertyName hname) hhead]
      exact readProperty_base hname (by simp) htakes
  · exact hp.read_prims hne

end PathSets.Pattern
