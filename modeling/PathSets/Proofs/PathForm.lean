import PathSets.Proofs.PathText

/-!
# What reading paths gives

A path that has been read is well formed (`Path.wellFormed_of_read`), and the steps to a
child and to a property keep it so (`Path.WellFormed.child`,
`Path.WellFormed.withProperty`).
-/

namespace PathSets.Path

variable {p q : Path} {first alone last : Bool} {element : List Char}
  {elements : List (List Char)} {name : String}

/-! ## Growing a path -/

/-- A path without its property, which may go on. -/
structure Open (p : Path) : Prop where
  anchor : p.anchor ≠ .empty
  prims : Descends p.anchor p.prims
  property : p.property = none

theorem Open.wellFormed (h : p.Open) : p.WellFormed where
  empty hempty := absurd hempty h.anchor
  prims := h.prims
  property name hname := by
    rw [h.property] at hname
    exact absurd hname (by simp)

theorem open_nil {anchor : Anchor} (h : anchor ≠ .empty) : Open { anchor } :=
  ⟨h, descends_nil anchor, rfl⟩

theorem Open.append (h : p.Open) (hname : isIdentifier name.toList = true) :
    Open { p with prims := p.prims ++ [name] } :=
  ⟨h.anchor, h.prims.append hname, h.property⟩

theorem Open.append_upElement (h : p.Open) (hanchor : p.anchor = .relative)
    (hno : p.prims.any (· != upElement) = false) :
    Open { p with prims := p.prims ++ [upElement] } := by
  refine ⟨h.anchor, ?_, h.property⟩
  have hprims := h.prims
  dsimp only
  rw [hanchor] at hprims ⊢
  exact hprims.append_upElement hno

theorem Open.withProperty (h : p.Open) (hname : isPropertyName name.toList = true)
    (htakes : TakesProperty p.anchor p.prims) :
    WellFormed { p with property := some name } where
  empty hempty := absurd hempty h.anchor
  prims := h.prims
  property x hx := by
    obtain rfl : name = x := Option.some.inj hx
    exact ⟨hname, htakes⟩

/-! ## Reading -/

/-- What an element is that is neither `.` nor `..`: a property by itself, or a name and
perhaps a property. -/
theorem readNamed_cases (hp : p.property = none) (h : readNamed p alone last element = .ok q) :
    ∃ name property, element = name ++ writeProperty property ∧
      (property.isSome = true → last = true) ∧
      (∀ x ∈ property, isPropertyName x.toList = true) ∧
      ((name = [] ∧ p.anchor = .relative ∧ alone = true ∧ property.isSome = true ∧
          q = { p with property }) ∨
        (isIdentifier name = true ∧
          q = { p with prims := p.prims ++ [String.ofList name], property })) := by
  -- The element is cut at its first dot.
  obtain ⟨name, property?, hname, hproperty?, helement⟩ : ∃ name property?,
      element.takeWhile (· != '.') = name ∧ (element.dropWhile (· != '.')).tail? = property? ∧
        element = name ++ writeProperty (property?.map String.ofList) := by
    refine ⟨_, _, rfl, rfl, ?_⟩
    have hcut := List.takeWhile_append_dropWhile (p := (· != '.')) (l := element)
    cases hrest : element.dropWhile (· != '.') with
    | nil =>
      rw [hrest] at hcut
      exact hcut.symm
    | cons c rest =>
      have hdot : c = '.' := by
        have hhead := List.head?_dropWhile_not (· != '.') element
        simpa [hrest] using hhead
      rw [hrest, hdot] at hcut
      simpa [writeProperty] using hcut.symm
  rw [Path.readNamed] at h
  dsimp only at h
  rw [hname, hproperty?] at h
  split at h
  · exact absurd h (by simp)
  split at h
  · exact absurd h (by simp)
  split at h
  · exact absurd h (by simp)
  next hlast hempty hidentifier =>
  refine ⟨name, property?.map String.ofList, helement, by simpa using hlast, ?_⟩
  by_cases hnil : name = []
  · subst hnil
    split at h
    · simp at hempty
    next property =>
    split at h
    · next hproperty =>
      have halone : p.anchor = .relative ∧ alone = true := by simpa using hempty
      exact ⟨by simpa using hproperty,
        Or.inl ⟨rfl, halone.1, halone.2, rfl, (Except.ok.inj h).symm⟩⟩
    · exact absurd h (by simp)
  · have hname' : isIdentifier name = true := by simpa [hnil] using hidentifier
    simp only [List.isEmpty_eq_false_iff.mpr hnil, if_false, Bool.false_eq_true] at h
    split at h
    · obtain rfl := Except.ok.inj h
      exact ⟨by simp, Or.inr ⟨hname', by rw [Option.map_none, ← hp]⟩⟩
    next property =>
    split at h
    · next hproperty =>
      exact ⟨by simpa using hproperty, Or.inr ⟨hname', (Except.ok.inj h).symm⟩⟩
    · exact absurd h (by simp)

/-- Reading a name and a property adds them, and a property only at the end. -/
theorem Open.readNamed (hp : p.Open) (halone : alone = true → p.prims = [])
    (h : readNamed p alone last element = .ok q) :
    q.anchor = p.anchor ∧ q.WellFormed ∧ (last = false → q.Open) := by
  obtain ⟨name, property, -, hlast, hproperty, ⟨-, hrelative, halone', hsome, rfl⟩ |
    ⟨hname, rfl⟩⟩ := readNamed_cases hp.property h
  · obtain ⟨x, rfl⟩ := Option.isSome_iff_exists.mp hsome
    have htakes : TakesProperty p.anchor p.prims := Or.inr ⟨hrelative, halone halone'⟩
    exact ⟨rfl, hp.withProperty (hproperty x rfl) htakes, by simp [hlast]⟩
  · have hname' : isIdentifier (String.ofList name).toList = true := by
      rwa [String.toList_ofList]
    have happend := hp.append hname'
    cases property with
    | none =>
      have hnext := happend.property ▸ happend
      exact ⟨rfl, hnext.wellFormed, fun _ => hnext⟩
    | some x =>
      exact ⟨rfl, happend.withProperty (hproperty x rfl) (takesProperty_append hname'),
        by simp [hlast]⟩

/-- Reading elements keeps a path well formed, if nothing comes after a property. -/
theorem wellFormed_of_readElements (hp : p.WellFormed) (hopen : elements ≠ [] → p.Open)
    (hfirst : first = true → p.prims = []) (h : readElements p first elements = .ok q) :
    q.WellFormed ∧ q.anchor = p.anchor := by
  induction elements generalizing p first with
  | nil =>
    obtain rfl := Except.ok.inj h
    exact ⟨hp, rfl⟩
  | cons element elements ih =>
    have hp' := hopen (by simp)
    unfold readElements at h
    split at h
    · exact absurd h (by simp)
    · split at h
      · exact absurd h (by simp)
      · exact ih hp (fun _ => hp') (by simp) h
    · split at h
      · exact absurd h (by simp)
      · next hup =>
        rw [Bool.not_eq_true, Bool.or_eq_false_iff] at hup
        have hrelative : p.anchor = .relative := by
          have hanchor := hp'.anchor
          have habsolute := hup.1
          cases heq : p.anchor with
          | empty => exact absurd heq hanchor
          | relative => rfl
          | absolute => simp [isAbsolute, heq] at habsolute
        have hnext := hp'.append_upElement hrelative hup.2
        have hq := ih hnext.wellFormed (fun _ => hnext) (by simp) h
        exact hq
    · obtain ⟨next, hnext, hrest⟩ := bind_eq_ok.mp h
      have halone : (first && elements.isEmpty) = true → p.prims = [] := by
        intro hand
        rw [Bool.and_eq_true] at hand
        exact hfirst hand.1
      obtain ⟨hanchor, hwell, hnotLast⟩ := hp'.readNamed halone hnext
      have hopen' : elements ≠ [] → next.Open := fun hne =>
        hnotLast (List.isEmpty_eq_false_iff.mpr hne)
      obtain ⟨hq, hsame⟩ := ih hwell hopen' (by simp) hrest
      exact ⟨hq, hsame.trans hanchor⟩

theorem wellFormed_of_readBody {anchor : Anchor} {body : List Char} (hanchor : anchor ≠ .empty)
    (h : readBody anchor body = .ok q) : q.WellFormed ∧ q.anchor = anchor := by
  have hnil : Open { anchor } := open_nil hanchor
  rw [readBody] at h
  split at h
  · obtain rfl := Except.ok.inj h
    exact ⟨hnil.wellFormed, rfl⟩
  · exact wellFormed_of_readElements hnil.wellFormed (fun _ => hnil) (fun _ => rfl) h

/-- A path that has been read is well formed. -/
theorem wellFormed_of_read {text : List Char} (h : read text = .ok q) : q.WellFormed := by
  unfold read at h
  split at h
  · obtain rfl := Except.ok.inj h
    exact wellFormed_empty
  · exact (wellFormed_of_readBody (by simp) h).1
  · exact (wellFormed_of_readBody (by simp) h).1

theorem wellFormed_of_parse {text : String} (h : parse text = .ok q) : q.WellFormed :=
  wellFormed_of_read (mapError_eq_ok.mp h)

/-! ## Children and properties -/

theorem Descends.take {anchor : Anchor} {prims : List String} (h : Descends anchor prims)
    (n : Nat) : Descends anchor (prims.take n) := by
  obtain ⟨ups, names, rfl, hnames, hups⟩ := h
  refine ⟨min n ups, names.take (n - ups), ?_, ?_, fun hne => hups (by omega)⟩
  · rw [List.take_append, List.take_replicate, List.length_replicate]
  · exact fun name hname => hnames name (List.mem_of_mem_take hname)

theorem Descends.dropLast {anchor : Anchor} {prims : List String} (h : Descends anchor prims) :
    Descends anchor prims.dropLast := by
  rw [List.dropLast_eq_take]
  exact h.take _

/-- Where a path does not end in a name, no name has come. -/
theorem Descends.any_eq_false {anchor : Anchor} {prims : List String} (h : Descends anchor prims)
    (hlast : prims.getLast?.any (· != upElement) = false) :
    prims.any (· != upElement) = false := by
  obtain ⟨ups, names, rfl, hnames, -⟩ := h
  have hnil : names = [] := by
    by_contra hne
    obtain ⟨front, name, rfl⟩ : ∃ front name, names = front ++ [name] :=
      ⟨_, _, (List.dropLast_concat_getLast hne).symm⟩
    have hname : name ≠ upElement := ne_upElement_of_isIdentifier (hnames name (by simp))
    simp [← List.append_assoc, hname] at hlast
  subst hnil
  simp

/-- What a child is: `..` removes the last name or goes up once more, and a name goes
down. -/
theorem child_cases (h : p.child name = .ok q) :
    p.isEmpty = false ∧ p.property = none ∧
      ((name = upElement ∧ p.prims.getLast?.any (· != upElement) = true ∧
          q = { p with prims := p.prims.dropLast }) ∨
        (name = upElement ∧ p.anchor = .relative ∧
          p.prims.getLast?.any (· != upElement) = false ∧
          q = { p with prims := p.prims ++ [upElement] }) ∨
        (isIdentifier name.toList = true ∧ q = { p with prims := p.prims ++ [name] })) := by
  rw [Path.child] at h
  split at h
  · exact absurd h (by simp)
  split at h
  · exact absurd h (by simp)
  next hempty hproperty =>
  refine ⟨by simpa using hempty, by simpa [isProperty] using hproperty, ?_⟩
  split at h
  · next hup =>
    rw [beq_iff_eq] at hup
    split at h
    · next hlast => exact Or.inl ⟨hup, hlast, (Except.ok.inj h).symm⟩
    next hlast =>
    split at h
    · next hrelative =>
      exact Or.inr (Or.inl ⟨hup, by simpa using hrelative, Bool.not_eq_true _ ▸ hlast,
        (Except.ok.inj h).symm⟩)
    · exact absurd h (by simp)
  · split at h
    · next hname => exact Or.inr (Or.inr ⟨hname, (Except.ok.inj h).symm⟩)
    · exact absurd h (by simp)

/-- What a property is: it has a name and stands on a prim or on `.`. -/
theorem withProperty_cases (h : p.withProperty name = .ok q) :
    (p.isPrim = true ∨ p.isHere = true) ∧ isPropertyName name.toList = true ∧
      q = { p with property := some name } := by
  rw [Path.withProperty] at h
  split at h
  · exact absurd h (by simp)
  next hkind =>
  rw [Bool.not_eq_true', Bool.not_eq_false, Bool.or_eq_true] at hkind
  split at h
  · next hname => exact ⟨hkind, hname, (Except.ok.inj h).symm⟩
  · exact absurd h (by simp)

theorem WellFormed.child (hp : p.WellFormed) (h : p.child name = .ok q) : q.WellFormed := by
  obtain ⟨hempty, hproperty, hcases⟩ := child_cases h
  have hopen : p.Open := ⟨by simpa [isEmpty] using hempty, hp.prims, hproperty⟩
  obtain ⟨-, -, rfl⟩ | ⟨-, hrelative, hlast, rfl⟩ | ⟨hname, rfl⟩ := hcases
  · exact Open.wellFormed ⟨hopen.anchor, hp.prims.dropLast, hproperty⟩
  · exact (hopen.append_upElement hrelative (hp.prims.any_eq_false hlast)).wellFormed
  · exact (hopen.append hname).wellFormed

theorem WellFormed.withProperty (hp : p.WellFormed) (h : p.withProperty name = .ok q) :
    q.WellFormed := by
  obtain ⟨hprim | hhere, hname, rfl⟩ := withProperty_cases h
  · simp only [isPrim, isProperty, Bool.and_eq_true, Bool.not_eq_true',
      Option.isSome_eq_false_iff, Option.isNone_iff_eq_none] at hprim
    have hanchor : p.anchor ≠ .empty := by
      intro hempty
      have hlast := hprim.2
      simp [(hp.empty hempty).1] at hlast
    exact Open.withProperty ⟨hanchor, hp.prims, hprim.1⟩ hname (Or.inl hprim.2)
  · obtain rfl := eq_here_of_isHere hhere
    exact Open.withProperty ⟨by decide, descends_nil _, rfl⟩ hname (Or.inr ⟨rfl, rfl⟩)

end PathSets.Path
