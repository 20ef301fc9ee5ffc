import PathSets.Proofs.PatternText

/-!
# Traces of reading patterns

How a text is read as a pattern, step by step and without the limits that bound the reader:
`ElementTrace` for elements and `LeadingTrace` for the leading `.` and `..` of a relative
pattern.  Each constructor is one way in which the reader goes on, and what the text is at
that place stands in its type.

Every reading leaves a trace (`elementTrace_of_readElements`, `leadingTrace_of_readLeading`),
so what holds of all texts that are read is proved by induction on traces.
-/

namespace PathSets.Pattern

variable {p q : Pattern} {text element rest after : List Char} {name : String}
  {condition : Option Predicate} {afterSlash first : Bool} {limit : Nat}

/-! ## Elements -/

/-- An element and what follows it make up the text. -/
theorem splitElementFrom_fst_append_snd (g : Groups) (text : List Char) :
    (splitElementFrom g text).1 ++ (splitElementFrom g text).2 = text := by
  induction text generalizing g with
  | nil => rfl
  | cons c text ih =>
    rw [splitElementFrom]
    split
    · rfl
    · exact congrArg (c :: ·) (ih (g.step c))

/-- A slash or a dot follows an element, or nothing. -/
theorem boundsElement_splitElementFrom (g : Groups) (text : List Char) :
    BoundsElement (splitElementFrom g text).2 := by
  induction text generalizing g with
  | nil => exact stopsBefore_nil
  | cons c text ih =>
    rw [splitElementFrom]
    split
    · next hstop =>
      have hc : c = '/' ∨ c = '.' := by
        rw [Bool.and_eq_true] at hstop
        simpa using hstop.2
      rcases hc with rfl | rfl <;> exact stopsBefore_cons rfl
    · exact ih (g.step c)

/-- An element does not begin with a dot. -/
theorem head_splitElement (text : List Char) : (splitElement text).1.head? ≠ some '.' := by
  cases text with
  | nil => simp [splitElement, splitElementFrom]
  | cons c text =>
    rw [splitElement, splitElementFrom]
    split
    · simp
    · next hopen =>
      simp only [List.head?_cons]
      intro heq
      rw [Option.some.inj heq] at hopen
      exact hopen (by decide)

/-- The name or glob of an element stands before its predicate in braces. -/
theorem splitPredicate_cases (h : splitPredicate element after = .ok (name, condition)) :
    (condition = none ∧ element = name.toList) ∨
      ∃ body predicate, condition = some predicate ∧ Predicate.read body = .ok predicate ∧
        element = name.toList ++ ('{' :: body ++ ['}']) := by
  have happend := List.takeWhile_append_dropWhile (p := (· != '{')) (l := element)
  rw [splitPredicate] at h
  split at h
  · next hdrop =>
    obtain ⟨rfl, rfl⟩ := Prod.mk.inj (Except.ok.inj h)
    rw [hdrop, List.append_nil] at happend
    exact Or.inl ⟨rfl, by rw [String.toList_ofList, happend]⟩
  next brace body hdrop =>
  split at h
  · next hlast =>
    split at h
    · next predicate hread =>
      obtain ⟨rfl, rfl⟩ := Prod.mk.inj (Except.ok.inj h)
      have hbrace : brace = '{' := by
        have hhead := List.head?_dropWhile_not (· != '{') element
        rw [hdrop] at hhead
        simpa using hhead
      subst hbrace
      have hbody : body = body.dropLast ++ ['}'] := (List.dropLast_append_getLast? '}' hlast).symm
      refine Or.inr ⟨_, predicate, rfl, hread, ?_⟩
      rw [String.toList_ofList, List.cons_append, ← hbody, ← hdrop, happend]
    · exact absurd h (by simp)
  · exact absurd h (by simp)

theorem accept_eq_ok {result : Except Refused Pattern} (h : accept text result = .ok q) :
    result = .ok q := by
  cases result with
  | ok p => exact congrArg Except.ok (Except.ok.inj h)
  | error refused => exact absurd h (by simp [accept])

/-- A property is one element, the last one, and is appended. -/
theorem readProperty_cases (h : readProperty p text = .ok q) :
    ∃ name condition, splitPredicate text [] = .ok (name, condition) ∧
      p.canAppendProperty name = true ∧ p.appendProperty name condition = .ok q := by
  have htext : (splitElement text).1 ++ (splitElement text).2 = text :=
    splitElementFrom_fst_append_snd {} text
  rw [readProperty] at h
  dsimp only at h
  split at h
  · exact absurd h (by simp)
  next hrest =>
  have hnil : (splitElement text).2 = [] := by simpa using hrest
  rw [hnil, List.append_nil] at htext
  rw [htext] at h
  obtain ⟨⟨name, condition⟩, hsplit, h⟩ := bind_eq_ok.mp h
  dsimp only at h
  split at h
  · exact absurd h (by simp)
  split at h
  · exact absurd h (by simp)
  next hcan => exact ⟨name, condition, hsplit, by simpa using hcan, accept_eq_ok h⟩

/-- What an element does to a pattern.  An empty one stands only before a dot and changes
nothing; the parts of any other are appended. -/
inductive Adds (p : Pattern) (afterSlash : Bool) :
    (element rest : List Char) → (q : Pattern) → Prop
  | empty {property : List Char} (hslash : afterSlash = false) :
      Adds p afterSlash [] ('.' :: property) p
  | parts {element rest : List Char} {name : String} {condition : Option Predicate} {q : Pattern}
      (hne : element ≠ []) (hdot : element.head? ≠ some '.')
      (hsplit : splitPredicate element rest = .ok (name, condition))
      (happend : p.appendChild name condition = .ok q) : Adds p afterSlash element rest q

theorem adds_of_readElement (hdot : element.head? ≠ some '.')
    (h : readElement p afterSlash text element rest = .ok q) :
    Adds p afterSlash element rest q := by
  rw [readElement] at h
  split at h
  · next hempty =>
    obtain rfl := List.isEmpty_iff.mp hempty
    split at h
    · exact absurd h (by simp)
    next hstop =>
    obtain ⟨hhead, hslash⟩ : rest.head? = some '.' ∧ afterSlash = false := by simpa using hstop
    obtain ⟨property, rfl⟩ := List.head?_eq_some_iff.mp hhead
    obtain rfl := Except.ok.inj h
    exact .empty hslash
  · next hne =>
    obtain ⟨⟨name, condition⟩, hsplit, h⟩ := bind_eq_ok.mp h
    exact .parts (by simpa using hne) hdot hsplit (accept_eq_ok h)

/-- What may follow an element: nothing, the property, a stretch, or the next element. -/
theorem readAfter_cases (hrest : BoundsElement rest) (h : readAfter limit p rest = .ok q) :
    (rest = [] ∧ q = p) ∨
      (∃ property, rest = '.' :: property ∧ readProperty p property = .ok q) ∨
      (∃ more, rest = '/' :: '/' :: more ∧
        readElements limit p.appendStretch false more = .ok q) ∨
      ∃ more, rest = '/' :: more ∧ more ≠ [] ∧ readElements limit p true more = .ok q := by
  unfold readAfter at h
  split at h
  · next property => exact Or.inr (Or.inl ⟨property, rfl, h⟩)
  · next more =>
    split at h
    · exact absurd h (by simp)
    · exact Or.inr (Or.inr (Or.inl ⟨more, rfl, h⟩))
  · next more _ =>
    split at h
    · exact absurd h (by simp)
    · next hmore => exact Or.inr (Or.inr (Or.inr ⟨more, rfl, by simpa using hmore, h⟩))
  · next hproperty _ hslash =>
    refine Or.inl ⟨?_, (Except.ok.inj h).symm⟩
    cases rest with
    | nil => rfl
    | cons c more =>
      have hc : c = '/' ∨ c = '.' := by simpa [or_iff_not_imp_left] using hrest c rfl
      rcases hc with rfl | rfl
      · exact (hslash more rfl).elim
      · exact (hproperty more rfl).elim

/-- How elements are read, from the pattern before them to the pattern after them. -/
inductive ElementTrace : Pattern → (afterSlash : Bool) → List Char → Pattern → Prop
  | done {p : Pattern} {afterSlash : Bool} : ElementTrace p afterSlash [] p
  | last {p q : Pattern} {afterSlash : Bool} {element : List Char}
      (h : Adds p afterSlash element [] q) : ElementTrace p afterSlash element q
  | property {p next q : Pattern} {afterSlash : Bool} {element property : List Char}
      (h : Adds p afterSlash element ('.' :: property) next)
      (hproperty : readProperty next property = .ok q) :
      ElementTrace p afterSlash (element ++ '.' :: property) q
  | stretch {p next q : Pattern} {afterSlash : Bool} {element more : List Char}
      (h : Adds p afterSlash element ('/' :: '/' :: more) next)
      (hmore : ElementTrace next.appendStretch false more q) :
      ElementTrace p afterSlash (element ++ '/' :: '/' :: more) q
  | slash {p next q : Pattern} {afterSlash : Bool} {element more : List Char}
      (h : Adds p afterSlash element ('/' :: more) next) (hne : more ≠ [])
      (hmore : ElementTrace next true more q) :
      ElementTrace p afterSlash (element ++ '/' :: more) q

theorem elementTrace_of_readElements (h : readElements limit p afterSlash text = .ok q) :
    ElementTrace p afterSlash text q := by
  induction limit generalizing p afterSlash text with
  | zero =>
    cases text with
    | nil =>
      obtain rfl := Except.ok.inj h
      exact .done
    | cons c text => exact absurd h (by simp [readElements])
  | succ limit ih =>
    by_cases hne : text = []
    · subst hne
      obtain rfl := Except.ok.inj h
      exact .done
    rw [readElements_succ hne] at h
    obtain ⟨next, hnext, hafter⟩ := bind_eq_ok.mp h
    have hadds := adds_of_readElement (head_splitElement text) hnext
    have hbounds : BoundsElement (splitElement text).2 := boundsElement_splitElementFrom {} text
    have htext : (splitElement text).1 ++ (splitElement text).2 = text :=
      splitElementFrom_fst_append_snd {} text
    generalize (splitElement text).1 = element at hadds htext
    generalize (splitElement text).2 = rest at hadds hbounds htext hafter
    subst htext
    obtain ⟨rfl, rfl⟩ | ⟨property, rfl, hproperty⟩ | ⟨more, rfl, hmore⟩ | ⟨more, rfl, hne, hmore⟩ :=
      readAfter_cases hbounds hafter
    · rw [List.append_nil]
      exact .last hadds
    · exact .property hadds hproperty
    · exact .stretch hadds (ih hmore)
    · exact .slash hadds hne (ih hmore)

/-! ## Leading elements -/

/-- What a leading element does to a relative pattern: `.` may only come first and changes
nothing, and `..` goes up. -/
inductive LeadTo (p : Pattern) (first : Bool) : (lead : List Char) → (q : Pattern) → Prop
  | here (hfirst : first = true) : LeadTo p first ['.'] p
  | up {q : Pattern} (happend : p.appendChild upElement none = .ok q) :
      LeadTo p first ['.', '.'] q

/-- How the leading elements of a relative pattern are read, and the others after them. -/
inductive LeadingTrace : Pattern → (first : Bool) → List Char → Pattern → Prop
  | done {p : Pattern} {first : Bool} : LeadingTrace p first [] p
  | elements {p q : Pattern} {first : Bool} {text : List Char}
      (h : ElementTrace p (!first) text q) : LeadingTrace p first text q
  | last {p q : Pattern} {first : Bool} {lead : List Char} (h : LeadTo p first lead q) :
      LeadingTrace p first lead q
  | stretch {p next q : Pattern} {first : Bool} {lead more : List Char}
      (h : LeadTo p first lead next) (hmore : ElementTrace next.appendStretch false more q) :
      LeadingTrace p first (lead ++ '/' :: '/' :: more) q
  | slash {p next q : Pattern} {first : Bool} {lead more : List Char}
      (h : LeadTo p first lead next) (hmore : LeadingTrace next false more q) :
      LeadingTrace p first (lead ++ '/' :: more) q

/-- What may follow a leading element, once `next` is known to leave a trace. -/
theorem LeadTo.trace_of_readAfterLeading {lead : List Char} {p' : Pattern}
    {next : Pattern → List Char → Reading PatternFault Pattern} (hlead : LeadTo p first lead p')
    (hnext : ∀ text, next p' text = .ok q → LeadingTrace p' false text q)
    (hends : endsElement rest = true) (h : readAfterLeading next p' rest = .ok q) :
    LeadingTrace p first (lead ++ rest) q := by
  unfold readAfterLeading at h
  split at h
  · exact .stretch hlead (elementTrace_of_readElements h)
  · exact .slash hlead (hnext _ h)
  · next hslash =>
    obtain rfl := Except.ok.inj h
    cases rest with
    | nil =>
      rw [List.append_nil]
      exact .last hlead
    | cons c more =>
      obtain rfl : c = '/' := by simpa [endsElement] using hends
      exact (hslash more rfl).elim

theorem leadingTrace_of_readLeading (h : readLeading limit p first text = .ok q) :
    LeadingTrace p first text q := by
  induction limit generalizing p first text with
  | zero =>
    cases text with
    | nil =>
      obtain rfl := Except.ok.inj h
      exact .done
    | cons c text => exact absurd h (by simp [readLeading])
  | succ limit ih =>
    have helements : ∀ {limit : Nat}, readElements limit p (!first) text = .ok q →
        LeadingTrace p first text q := fun h => .elements (elementTrace_of_readElements h)
    by_cases hne : text = []
    · subst hne
      obtain rfl := Except.ok.inj h
      exact .done
    rw [readLeading] at h
    split at h
    · next rest _ hup =>
      split at h
      · next hends =>
        obtain ⟨next, hnext, hafter⟩ := bind_eq_ok.mp h
        have hlead : LeadTo p first ['.', '.'] next := .up (accept_eq_ok hnext)
        rw [after?_eq_some.mp hup]
        exact hlead.trace_of_readAfterLeading (fun _ => ih) hends hafter
      · exact helements h
    · next rest _ hhere =>
      split at h
      · next hends =>
        split at h
        · next hfirst =>
          rw [after?_eq_some.mp hhere]
          exact (LeadTo.here hfirst).trace_of_readAfterLeading (fun _ => ih) hends h
        · exact absurd h (by simp)
      · exact helements h
    · exact helements h
    · exact hne

/-! ## Whole patterns -/

/-- A pattern is read from `//`, from the root, or from the place where relative paths
start. -/
theorem read_cases (h : read text = .ok q) :
    (∃ more, text = '/' :: '/' :: more ∧ ElementTrace everything false more q) ∨
      (∃ more, text = '/' :: more ∧ ElementTrace (ofPrims .absolute []) false more q) ∨
      (text ≠ [] ∧ LeadingTrace (ofPrims .relative []) true text q) := by
  unfold read at h
  split at h
  · exact absurd h (by simp)
  · exact Or.inl ⟨_, rfl, elementTrace_of_readElements h⟩
  · exact Or.inr (Or.inl ⟨_, rfl, elementTrace_of_readElements h⟩)
  · next hne _ _ => exact Or.inr (Or.inr ⟨hne, leadingTrace_of_readLeading h⟩)

end PathSets.Pattern
