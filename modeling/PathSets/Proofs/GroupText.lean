import PathSets.Pattern.Reader
import PathSets.Proofs.PathText
import PathSets.Proofs.PredicateText

/-!
# Groups in a text

A pattern has sets in brackets and predicates in braces, and two scanners have to pass
over them: the one that cuts a pattern into elements and the one that cuts an expression
into tokens.  `Grouped` says that every group of a text is closed again, whatever stands
in it, and `Inert` is what may stand in braces.

Written predicates are inert (`Predicate.inert_write`), and names and globs are grouped
(`grouped_of_isIdentifier`, `grouped_of_isGlob`).  The scanner for elements passes over
such texts (`Pattern.splitElement_append`).
-/

namespace PathSets

/-! ## What stands in braces -/

/-- What follows an opening quote, up to the closing one. -/
inductive Quoted : List Char → Prop
  | close : Quoted ['"']
  | escape {c : Char} {text : List Char} (htext : Quoted text) : Quoted ('\\' :: c :: text)
  | char {c : Char} {text : List Char} (hquote : c ≠ '"') (hescape : c ≠ '\\')
      (htext : Quoted text) : Quoted (c :: text)

/-- A text in which every brace is quoted and every quoted text ends. -/
inductive Inert : List Char → Prop
  | nil : Inert []
  | char {c : Char} {text : List Char} (hquote : c ≠ '"') (hopen : c ≠ '{') (hclose : c ≠ '}')
      (htext : Inert text) : Inert (c :: text)
  | quoted {quoted text : List Char} (hquoted : Quoted quoted) (htext : Inert text) :
      Inert ('"' :: quoted ++ text)

/-- A character that means nothing in braces. -/
def isInertChar (c : Char) : Bool :=
  c != '"' && c != '{' && c != '}'

section Inert

variable {text back : List Char} {c : Char}

theorem inert_of_forall (h : ∀ c ∈ text, isInertChar c = true) : Inert text := by
  induction text with
  | nil => exact .nil
  | cons c text ih =>
    have hc : isInertChar c = true := h c (by simp)
    simp only [isInertChar, Bool.and_eq_true, bne_iff_ne, ne_eq] at hc
    exact .char hc.1.1 hc.1.2 hc.2 (ih fun d hd => h d (List.mem_cons_of_mem c hd))

theorem inert_of_all (h : text.all isInertChar = true) : Inert text :=
  inert_of_forall (List.all_eq_true.mp h)

theorem isInertChar_of_isNameChar (h : isNameChar c = true) : isInertChar c = true := by
  have hne : ∀ d : Char, isNameChar d = false → c ≠ d := fun d => ne_of_isNameChar h
  simp [isInertChar, hne '"' (by decide), hne '{' (by decide), hne '}' (by decide)]

theorem Inert.append (h : Inert text) (hback : Inert back) : Inert (text ++ back) := by
  induction h with
  | nil => exact hback
  | char hquote hopen hclose _ ih => exact .char hquote hopen hclose ih
  | quoted hquoted _ ih =>
    rw [List.append_assoc]
    exact .quoted hquoted ih

theorem quoted_escape (s : List Char) : Quoted (escape s ++ ['"']) := by
  induction s with
  | nil => exact .close
  | cons c s ih =>
    rw [escape]
    split
    · exact .escape ih
    · next hc =>
      rw [not_or] at hc
      exact .char hc.1 hc.2 ih

end Inert

/-! ## Written predicates -/

theorem inert_of_isIdentifier {name : List Char} (h : isIdentifier name = true) : Inert name :=
  inert_of_forall fun c hc => isInertChar_of_isNameChar (isNameChar_of_isIdentifier h c hc)

theorem Value.inert_write (v : Value) : Inert v.write := by
  have hdigits : ∀ n : Nat, Inert (writeNat n) := fun n =>
    inert_of_forall fun c hc =>
      isInertChar_of_isNameChar (isNameChar_of_isDigit (isDigit_of_mem_writeNat c hc))
  cases v with
  | truth b => cases b <;> exact inert_of_isIdentifier (by decide)
  | number n =>
    rw [write, writeInt]
    split
    · exact .char (by decide) (by decide) (by decide) (hdigits _)
    · exact hdigits _
  | word s =>
    rw [write]
    split
    · next hs =>
      rw [Bool.and_eq_true] at hs
      exact inert_of_isIdentifier hs.1
    · have hquoted := Inert.quoted (quoted_escape s.toList) .nil
      rwa [List.append_nil] at hquoted

theorem Argument.inert_write {a : Argument} (h : ∀ k ∈ a.keyword, isIdentifier k.toList = true) :
    Inert a.write := by
  obtain ⟨keyword, value⟩ := a
  cases keyword with
  | none => exact value.inert_write
  | some k =>
    rw [write_keyword]
    exact (inert_of_isIdentifier (h k rfl)).append
      (.char (by decide) (by decide) (by decide) value.inert_write)

theorem Argument.inert_writeAll {separator : List Char} {args : List Argument}
    (hseparator : Inert separator) (h : ∀ a ∈ args, ∀ k ∈ a.keyword, isIdentifier k.toList = true) :
    Inert (writeAll separator args) := by
  induction args with
  | nil => exact .nil
  | cons a args ih =>
    have ha : Inert a.write := inert_write (h a (by simp))
    cases args with
    | nil => simpa [writeAll] using ha
    | cons b args =>
      rw [writeAll_cons_cons]
      exact (ha.append hseparator).append (ih fun c hc => h c (List.mem_cons_of_mem a hc))

theorem Call.inert_write {c : Call} (hc : c.WellFormed) : Inert c.write := by
  obtain ⟨style, name, args⟩ := c
  have hname : Inert name.toList := inert_of_isIdentifier hc.name
  cases style with
  | bare => exact hname
  | colon =>
    have hkeyword : ∀ a ∈ args, ∀ k ∈ a.keyword, isIdentifier k.toList = true := by
      intro a ha k hk
      rw [(hc.colon rfl).2 a ha] at hk
      exact absurd hk (by simp)
    rw [write]
    dsimp only
    split
    · exact hname
    · exact hname.append (.char (by decide) (by decide) (by decide)
        (Argument.inert_writeAll (inert_of_all (by decide)) hkeyword))
  | paren =>
    rw [write]
    exact (hname.append (.char (by decide) (by decide) (by decide)
      (Argument.inert_writeAll (inert_of_all (by decide)) (hc.paren rfl)))).append
      (inert_of_all (by decide))

theorem Predicate.inert_write {p : Predicate} (hp : p.WellFormed) : Inert p.write := by
  have henclose : ∀ (needed : Bool) {text : List Char}, Inert text →
      Inert (enclose needed text) := by
    intro needed text htext
    cases needed with
    | false => exact htext
    | true =>
      exact (Inert.char (by decide) (by decide) (by decide) htext).append
        (inert_of_all (by decide))
  induction p with
  | call c => exact Call.inert_write hp
  | not operand ih => exact (inert_of_all (by decide)).append (henclose _ (ih hp))
  | binary op left right ihLeft ihRight =>
    have hop : Inert op.write := by cases op <;> exact inert_of_all (by decide)
    exact ((henclose _ (ihLeft hp.1)).append hop).append (henclose _ (ihRight hp.2))

/-! ## Grouped texts -/

/-- A character that may stand in brackets. -/
def isSetChar (c : Char) : Bool :=
  isNameChar c || c == '-' || c == '!'

/-- A text of plain characters, sets in brackets and predicates in braces. -/
inductive Grouped (plain : Char → Bool) : List Char → Prop
  | nil : Grouped plain []
  | char {c : Char} {text : List Char} (hc : plain c = true) (htext : Grouped plain text) :
      Grouped plain (c :: text)
  | set {members text : List Char} (hmembers : ∀ c ∈ members, isSetChar c = true)
      (htext : Grouped plain text) : Grouped plain ('[' :: members ++ ']' :: text)
  | braces {body text : List Char} (hbody : Inert body) (htext : Grouped plain text) :
      Grouped plain ('{' :: body ++ '}' :: text)

section Grouped

variable {plain plain' : Char → Bool} {text back : List Char}

theorem grouped_of_forall (h : ∀ c ∈ text, plain c = true) : Grouped plain text := by
  induction text with
  | nil => exact .nil
  | cons c text ih => exact .char (h c (by simp)) (ih fun d hd => h d (List.mem_cons_of_mem c hd))

theorem grouped_of_all (h : text.all plain = true) : Grouped plain text :=
  grouped_of_forall (List.all_eq_true.mp h)

theorem Grouped.mono (h : Grouped plain text) (hplain : ∀ c, plain c = true → plain' c = true) :
    Grouped plain' text := by
  induction h with
  | nil => exact .nil
  | char hc _ ih => exact .char (hplain _ hc) ih
  | set hmembers _ ih => exact .set hmembers ih
  | braces hbody _ ih => exact .braces hbody ih

theorem Grouped.append (h : Grouped plain text) (hback : Grouped plain back) :
    Grouped plain (text ++ back) := by
  induction h with
  | nil => exact hback
  | char hc _ ih => exact .char hc ih
  | set hmembers _ ih =>
    rw [List.append_assoc, List.cons_append]
    exact .set hmembers ih
  | braces hbody _ ih =>
    rw [List.append_assoc, List.cons_append]
    exact .braces hbody ih

/-- A grouped text begins with a plain character or a group. -/
theorem Grouped.head (h : Grouped plain text) :
    ∀ c ∈ text.head?, plain c = true ∨ c = '[' ∨ c = '{' := by
  cases h with
  | nil => simp
  | char hc _ => simp [hc]
  | set _ _ => simp
  | braces _ _ => simp

end Grouped

/-- The split of a text with more at its front, where the split is further on. -/
def prepend (front : List Char) (split : List Char × List Char) : List Char × List Char :=
  (front ++ split.1, split.2)

theorem prepend_prepend (front more : List Char) (split : List Char × List Char) :
    prepend front (prepend more split) = prepend (front ++ more) split := by
  simp [prepend]

/-! ## Elements of a pattern -/

namespace Pattern

variable {text rest : List Char} {c : Char} {g : Groups}

theorem splitElementFrom_cons (h : (g.isClosed && (c = '/' || c = '.')) = false) :
    splitElementFrom g (c :: text) = prepend [c] (splitElementFrom (g.step c) text) := by
  rw [splitElementFrom, h]
  rfl

/-- What is open within braces, outside and inside of quotes. -/
def inBraces (quoted : Bool) : Groups :=
  { braces := 1, quoted }

theorem splitElementFrom_inBraces (quoted : Bool) (c : Char) (text : List Char) :
    splitElementFrom (inBraces quoted) (c :: text) =
      prepend [c] (splitElementFrom ((inBraces quoted).step c) text) :=
  splitElementFrom_cons (by simp [inBraces, Groups.isClosed])

/-- Quotes are passed over together with what stands in them. -/
theorem splitElementFrom_quoted (h : Quoted text) (rest : List Char) :
    splitElementFrom (inBraces true) (text ++ rest) =
      prepend text (splitElementFrom (inBraces false) rest) := by
  induction h with
  | close =>
    rw [List.singleton_append, splitElementFrom_inBraces]
    rfl
  | @escape c text _ ih =>
    have hescaped : splitElementFrom ((inBraces true).step '\\') (c :: (text ++ rest)) =
        prepend [c] (splitElementFrom (inBraces true) (text ++ rest)) :=
      splitElementFrom_cons rfl
    rw [List.cons_append, List.cons_append, splitElementFrom_inBraces, hescaped, ih,
      prepend_prepend, prepend_prepend]
    rfl
  | @char c text hquote hescape _ ih =>
    have hstep : (inBraces true).step c = inBraces true := by
      simp [inBraces, Groups.step, hescape, hquote]
    rw [List.cons_append, splitElementFrom_inBraces, hstep, ih, prepend_prepend]
    rfl

/-- What stands in braces is passed over. -/
theorem splitElementFrom_inert (h : Inert text) (rest : List Char) :
    splitElementFrom (inBraces false) (text ++ rest) =
      prepend text (splitElementFrom (inBraces false) rest) := by
  induction h with
  | nil => rfl
  | @char c text hquote hopen hclose _ ih =>
    have hstep : (inBraces false).step c = inBraces false := by
      simp [inBraces, Groups.step, hquote, hopen, hclose]
    rw [List.cons_append, splitElementFrom_inBraces, hstep, ih, prepend_prepend]
    rfl
  | quoted hquoted _ ih =>
    have hstep : (inBraces false).step '"' = inBraces true := rfl
    rw [List.append_assoc, List.cons_append, splitElementFrom_inBraces, hstep,
      splitElementFrom_quoted hquoted, ih, prepend_prepend, prepend_prepend]
    simp

/-- Sets in brackets are passed over. -/
theorem splitElementFrom_set {members : List Char} (h : ∀ c ∈ members, isSetChar c = true)
    (rest : List Char) :
    splitElementFrom { bracket := true } (members ++ ']' :: rest) =
      prepend (members ++ [']']) (splitElementFrom {} rest) := by
  induction members with
  | nil => exact splitElementFrom_cons rfl
  | cons c members ih =>
    have hne : ∀ d : Char, isSetChar d = false → c ≠ d := by
      rintro d hd rfl
      rw [h c (by simp)] at hd
      exact absurd hd (by decide)
    have hstep : Groups.step { bracket := true } c = { bracket := true } := by
      simp [Groups.step, hne '{' (by decide), hne '}' (by decide), hne ']' (by decide)]
    rw [List.cons_append, splitElementFrom_cons rfl, hstep,
      ih fun d hd => h d (List.mem_cons_of_mem c hd), prepend_prepend]
    rfl

/-- A character of an element outside all groups. -/
def isElementChar (c : Char) : Bool :=
  isNameChar c || c == ':' || c == '*' || c == '?'

/-- What is grouped is passed over. -/
theorem splitElementFrom_grouped (h : Grouped isElementChar text) (rest : List Char) :
    splitElementFrom {} (text ++ rest) = prepend text (splitElementFrom {} rest) := by
  induction h with
  | nil => rfl
  | @char c text hc _ ih =>
    have hne : ∀ d : Char, isElementChar d = false → c ≠ d := by
      rintro d hd rfl
      rw [hc] at hd
      exact absurd hd (by decide)
    have hstep : Groups.step {} c = {} := by
      simp [Groups.step, hne '{' (by decide), hne '}' (by decide), hne '[' (by decide),
        hne ']' (by decide)]
    rw [List.cons_append, splitElementFrom_cons, hstep, ih, prepend_prepend]
    · rfl
    · simp [hne '/' (by decide), hne '.' (by decide)]
  | @set members text hmembers _ ih =>
    have hstep : Groups.step {} '[' = { bracket := true } := rfl
    rw [List.append_assoc, List.cons_append, List.cons_append, splitElementFrom_cons rfl, hstep,
      splitElementFrom_set hmembers, ih, prepend_prepend, prepend_prepend]
    simp
  | @braces body text hbody _ ih =>
    have hstep : Groups.step {} '{' = inBraces false := rfl
    have hclose : splitElementFrom (inBraces false) ('}' :: (text ++ rest)) =
        prepend ['}'] (splitElementFrom {} (text ++ rest)) := splitElementFrom_cons rfl
    rw [List.append_assoc, List.cons_append, List.cons_append, splitElementFrom_cons rfl, hstep,
      splitElementFrom_inert hbody, hclose, ih, prepend_prepend, prepend_prepend,
      prepend_prepend]
    simp

/-- A slash or a dot outside all groups, or the end of the text, ends an element. -/
theorem splitElementFrom_stop (hrest : StopsBefore (fun c => c != '/' && c != '.') rest) :
    splitElementFrom {} rest = ([], rest) := by
  cases rest with
  | nil => rfl
  | cons c rest =>
    have hc := hrest c rfl
    have hstop : (c = '/' || c = '.') = true := by
      simp only [Bool.and_eq_false_iff, bne_eq_false_iff_eq] at hc
      simpa using hc
    rw [splitElementFrom, hstop]
    rfl

/-- An element ends only where a slash or a dot follows it, or nothing. -/
theorem splitElement_append (h : Grouped isElementChar text)
    (hrest : StopsBefore (fun c => c != '/' && c != '.') rest) :
    splitElement (text ++ rest) = (text, rest) := by
  rw [splitElement, splitElementFrom_grouped h, splitElementFrom_stop hrest, prepend,
    List.append_nil]

theorem splitElement_grouped (h : Grouped isElementChar text) : splitElement text = (text, []) := by
  have happend : splitElement (text ++ []) = (text, []) := splitElement_append h stopsBefore_nil
  rwa [List.append_nil] at happend

end Pattern

/-! ## Names and globs -/

section Shapes

variable {namespaced wild : Bool} {state : SetState} {text : List Char}

theorem isElementChar_of_isNameChar {c : Char} (h : isNameChar c = true) :
    Pattern.isElementChar c = true := by
  simp [Pattern.isElementChar, h]

theorem grouped_of_isIdentifier (h : isIdentifier text = true) :
    Grouped Pattern.isElementChar text :=
  grouped_of_forall fun c hc => isElementChar_of_isNameChar (isNameChar_of_isIdentifier h c hc)

theorem grouped_of_isPropertyName (h : isPropertyName text = true) :
    Grouped Pattern.isElementChar text := by
  refine grouped_of_forall fun c hc => ?_
  rcases isNameChar_of_isPropertyName h c hc with hname | rfl
  · exact isElementChar_of_isNameChar hname
  · decide

/-- The rest of an open set, and a grouped text after it. -/
def ClosesSet (text : List Char) : Prop :=
  ∃ members more, text = members ++ ']' :: more ∧ (∀ c ∈ members, isSetChar c = true) ∧
    Grouped Pattern.isElementChar more

theorem ClosesSet.cons {c : Char} (hc : isSetChar c = true) (h : ClosesSet text) :
    ClosesSet (c :: text) := by
  obtain ⟨members, more, rfl, hmembers, hmore⟩ := h
  exact ⟨c :: members, more, rfl, List.forall_mem_cons.mpr ⟨hc, hmembers⟩, hmore⟩

theorem isSetChar_of_isMember {c : Char} (h : (isNameChar c || c == '-') = true) :
    isSetChar c = true := by
  rw [isSetChar, h, Bool.true_or]

/-- What a glob is from a state on. -/
def SetState.Rest : SetState → List Char → Prop
  | outside => Grouped Pattern.isElementChar
  | _ => ClosesSet

/-- A glob closes the sets it opens, also one that is open already. -/
theorem rest_of_isGlobFrom (h : isGlobFrom namespaced state wild text = true) :
    state.Rest text := by
  fun_induction isGlobFrom namespaced state wild text with
  | case1 state wild =>
    rw [Bool.and_eq_true, beq_iff_eq] at h
    rw [h.2]
    exact Grouped.nil
  | case2 wild c text hopen ih =>
    obtain rfl : c = '[' := by simpa using hopen
    obtain ⟨members, more, rfl, hmembers, hmore⟩ := ih h
    exact Grouped.set hmembers hmore
  | case3 wild c text _ hwild ih =>
    have hc : Pattern.isElementChar c = true := by
      rw [Bool.or_eq_true, beq_iff_eq, beq_iff_eq] at hwild
      rcases hwild with rfl | rfl <;> decide
    exact Grouped.char hc (ih h)
  | case4 wild c text _ _ hplain ih =>
    have hc : Pattern.isElementChar c = true := by
      rw [Bool.or_eq_true, Bool.and_eq_true, beq_iff_eq] at hplain
      rcases hplain with hplain | ⟨-, rfl⟩
      · exact isElementChar_of_isNameChar hplain
      · decide
    exact Grouped.char hc (ih h)
  | case6 wild c text hnegated ih =>
    obtain rfl : c = '!' := by simpa using hnegated
    exact ClosesSet.cons (by decide) (ih h)
  | case7 wild c text _ hc ih => exact ClosesSet.cons (isSetChar_of_isMember hc) (ih h)
  | case9 wild c text hc ih => exact ClosesSet.cons (isSetChar_of_isMember hc) (ih h)
  | case11 wild c text hclose ih =>
    obtain rfl : c = ']' := by simpa using hclose
    exact ⟨[], text, rfl, nofun, ih h⟩
  | case12 wild c text _ hc ih => exact ClosesSet.cons (isSetChar_of_isMember hc) (ih h)
  | case5 | case8 | case10 | case13 => exact absurd h (by simp)

theorem grouped_of_isGlob (h : isGlob namespaced text = true) :
    Grouped Pattern.isElementChar text :=
  rest_of_isGlobFrom h

/-- A glob has a wildcard or a set. -/
theorem isGlob_eq_false (hset : '[' ∉ text) (hmany : '*' ∉ text) (hone : '?' ∉ text) :
    isGlob namespaced text = false := by
  rw [isGlob]
  induction text with
  | nil => rfl
  | cons c text ih =>
    rw [List.mem_cons, not_or] at hset hmany hone
    have htext := ih hset.2 hmany.2 hone.2
    simp [isGlobFrom, Ne.symm hset.1, Ne.symm hmany.1, Ne.symm hone.1, htext]

theorem isPropertyName_eq_false_of_isGlob (h : isGlob namespaced text = true) :
    isPropertyName text = false := by
  rw [Bool.eq_false_iff]
  intro hname
  have hno : ∀ c, isNameChar c = false → c ≠ ':' → c ∉ text := fun c =>
    not_mem_of_isPropertyName hname
  rw [isGlob_eq_false (hno _ (by decide) (by decide)) (hno _ (by decide) (by decide))
    (hno _ (by decide) (by decide))] at h
  exact absurd h (by simp)

theorem isIdentifier_eq_false_of_isGlob (h : isGlob namespaced text = true) :
    isIdentifier text = false := by
  rw [Bool.eq_false_iff]
  intro hname
  have hno : ∀ c, isNameChar c = false → c ∉ text := fun c => not_mem_of_isIdentifier hname
  rw [isGlob_eq_false (hno _ (by decide)) (hno _ (by decide)) (hno _ (by decide))] at h
  exact absurd h (by simp)

/-- A glob has no braces. -/
theorem not_mem_of_isGlobFrom (h : isGlobFrom namespaced state wild text = true) :
    '{' ∉ text := by
  have hbrace : isNameChar '{' = false := by decide
  fun_induction isGlobFrom namespaced state wild text <;> simp_all
  all_goals
    rintro rfl
    simp_all

theorem not_mem_of_isGlob (h : isGlob namespaced text = true) : '{' ∉ text :=
  not_mem_of_isGlobFrom h

theorem ne_nil_of_isGlob (h : isGlob namespaced text = true) : text ≠ [] := by
  rintro rfl
  exact absurd h (by simp [isGlob, isGlobFrom])

end Shapes

end PathSets
