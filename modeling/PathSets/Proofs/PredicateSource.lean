import PathSets.Proofs.GroupText
import PathSets.Proofs.Trail

/-!
# Texts that predicates are read from

A reader passes over the front of a text and leaves the rest.  What the readers of predicates
pass over is inert, a brace comes only in quotes and every quote is closed again, and the
parentheses in it that stand in no quotes are those they account for (`Predicate.Passes`).

The parts of these readers that meet no parenthesis (`Crosses`) come first, then each level of
the grammar.  All are followed with the same judgment (`Trail.Follows`), so at once it is known
what they read, what they leave, where they stop and what is open there
(`Predicate.follows_read`).
-/

namespace PathSets

/-! ## Going on in a text -/

/-- How a parenthesis is written. -/
def Paren.char : Paren → Char
  | opening _ => '('
  | closing _ => ')'

/-- A character that is no parenthesis and opens nothing else. -/
def isPlainChar (c : Char) : Bool :=
  isInertChar c && c != '(' && c != ')'

/-- Whether a text goes on with `rest` after an inert front with these parentheses. -/
inductive Predicate.Passes : (text rest : List Char) → List Paren → Prop
  | done (text : List Char) : Passes text text []
  | char {c : Char} {text rest : List Char} {passed : List Paren} (hc : isPlainChar c = true)
      (h : Passes text rest passed) : Passes (c :: text) rest passed
  | paren {text rest : List Char} {passed : List Paren} (paren : Paren)
      (h : Passes text rest passed) : Passes (paren.char :: text) rest (paren :: passed)
  | quoted {front text rest : List Char} {passed : List Paren} (hquoted : Quoted front)
      (h : Passes text rest passed) : Passes ('"' :: (front ++ text)) rest passed

namespace Predicate.Passes

variable {text middle rest : List Char} {passed more : List Paren}

theorem trans (h : Passes text middle passed) (hrest : Passes middle rest more) :
    Passes text rest (passed ++ more) := by
  induction h with
  | done => exact hrest
  | char hc _ ih => exact .char hc (ih hrest)
  | paren paren _ ih => exact .paren paren (ih hrest)
  | quoted hquoted _ ih => exact .quoted hquoted (ih hrest)

/-- What is passed over is inert. -/
theorem exists_inert (h : Passes text rest passed) :
    ∃ front, text = front ++ rest ∧ Inert front := by
  induction h with
  | done => exact ⟨[], rfl, .nil⟩
  | @char c _ _ _ hc _ ih =>
    obtain ⟨front, rfl, hfront⟩ := ih
    have hinert : Inert [c] := inert_of_all (by simp_all [isPlainChar])
    exact ⟨c :: front, rfl, hinert.append hfront⟩
  | paren paren _ ih =>
    obtain ⟨front, rfl, hfront⟩ := ih
    have hinert : Inert [paren.char] := by
      cases paren <;> exact .char (by simp [Paren.char]) (by simp [Paren.char])
        (by simp [Paren.char]) .nil
    exact ⟨paren.char :: front, rfl, hinert.append hfront⟩
  | @quoted quoted _ _ _ hquoted _ ih =>
    obtain ⟨front, rfl, hfront⟩ := ih
    exact ⟨'"' :: quoted ++ front, by simp, .quoted hquoted hfront⟩

theorem suffix (h : Passes text rest passed) : rest <:+ text := by
  obtain ⟨front, rfl, -⟩ := h.exists_inert
  exact List.suffix_append front rest

end Predicate.Passes

instance : Source Char (Stop PredicateFault) where
  Passes := Predicate.Passes
  IsAt stop place := stop.rest = place
  passes_refl := .done
  passes_trans := .trans
  suffix_of_passes := Predicate.Passes.suffix

section Passes

open Predicate

variable {text middle rest word : List Char} {c : Char}

theorem passes_of_forall {front : List Char} (h : ∀ c ∈ front, isPlainChar c = true)
    (rest : List Char) : Passes (front ++ rest) rest [] := by
  induction front with
  | nil => exact .done rest
  | cons c front ih => exact .char (h c (by simp)) (ih fun d hd => h d (List.mem_cons_of_mem c hd))

theorem passes_dropWhile {fits : Char → Bool}
    (h : ∀ c, fits c = true → isPlainChar c = true) (text : List Char) :
    Passes text (text.dropWhile fits) [] := by
  have hfront : ∀ c ∈ text.takeWhile fits, isPlainChar c = true := fun c hc =>
    h c (List.mem_takeWhile_imp hc)
  have hpasses := passes_of_forall hfront (text.dropWhile fits)
  rwa [List.takeWhile_append_dropWhile] at hpasses

theorem isPlainChar_of_ne (h : ∀ d ∈ ['"', '{', '}', '(', ')'], c ≠ d) :
    isPlainChar c = true := by
  simpa [isPlainChar, isInertChar, and_assoc] using h

theorem isPlainChar_of_isBlank (h : isBlank c = true) : isPlainChar c = true := by
  refine isPlainChar_of_ne fun d hd => ?_
  rintro rfl
  have hblanks : ['"', '{', '}', '(', ')'].all (!isBlank ·) = true := by decide
  have hblank := List.all_eq_true.mp hblanks c hd
  exact absurd h (by simpa using hblank)

theorem isPlainChar_of_isNameChar (h : isNameChar c = true) : isPlainChar c = true := by
  refine isPlainChar_of_ne fun d hd => ne_of_isNameChar h ?_
  have hnames : ['"', '{', '}', '(', ')'].all (!isNameChar ·) = true := by decide
  simpa using List.all_eq_true.mp hnames d hd

theorem passes_skipBlanks (text : List Char) : Passes text (skipBlanks text) [] :=
  passes_dropWhile (fun _ => isPlainChar_of_isBlank) text

theorem passes_leadingWord? (h : leadingWord? text = some (word, rest)) :
    Passes text rest [] := by
  cases text with
  | nil => exact absurd h (by simp [leadingWord?])
  | cons c text =>
    rw [leadingWord?] at h
    split at h
    · next hc =>
      obtain ⟨-, rfl⟩ := Prod.mk.inj (Option.some.inj h)
      exact .char (isPlainChar_of_isNameChar (isNameChar_of_isNameStart hc))
        (passes_dropWhile (fun _ => isPlainChar_of_isNameChar) text)
    · exact absurd h (by simp)

theorem passes_keyword? {word : String} (hword : word.toList.all isPlainChar = true)
    (h : keyword? word text = some rest) : Passes text rest [] := by
  have hafter := after?_eq_some.mp (Option.filter_eq_some_iff.mp h).1
  have hpasses := passes_of_forall (List.all_eq_true.mp hword) rest
  rw [← hafter] at hpasses
  exact (passes_skipBlanks text).trans hpasses

end Passes

/-! ## Arguments and calls -/

/-- Whether a part of a reader passes no parenthesis, up to where it ends or stops. -/
structure Crosses {α : Type} (text : List Char)
    (result : Reading PredicateFault (α × List Char)) : Prop where
  of_ok : ∀ a rest, result = .ok (a, rest) → Predicate.Passes text rest []
  of_error : ∀ stop, result = .error stop → Predicate.Passes text stop.rest []

namespace Crosses

open Predicate

variable {α β : Type} {text middle rest : List Char} {fault : PredicateFault} {a : α}
  {result : Reading PredicateFault (α × List Char)}

theorem ok (h : Passes text rest []) : Crosses text (.ok (a, rest)) where
  of_ok := by
    rintro _ _ ⟨⟩
    exact h
  of_error := nofun

theorem error (h : Passes text rest []) :
    Crosses text (.error ⟨fault, rest⟩ : Reading PredicateFault (α × List Char)) where
  of_ok := nofun
  of_error := by
    rintro _ ⟨⟩
    exact h

theorem after (h : Crosses middle result) (hstart : Passes text middle []) :
    Crosses text result where
  of_ok a rest ha := hstart.trans (h.of_ok a rest ha)
  of_error stop hstop := hstart.trans (h.of_error stop hstop)

theorem bind {f : α × List Char → Reading PredicateFault (β × List Char)}
    (h : Crosses text result) (hf : ∀ a rest, Crosses rest (f (a, rest))) :
    Crosses text (result >>= f) := by
  cases result with
  | error stop => exact .error (h.of_error stop rfl)
  | ok found => exact (hf found.1 found.2).after (h.of_ok found.1 found.2 rfl)

/-- What passes no parenthesis leaves no trail. -/
theorem follows (h : Crosses text result) {opened : Opened} :
    Trail.Follows text ⟨text, opened⟩ (fun found => ⟨found.2, opened⟩) (Walk.lift result)
      result where
  result := rfl
  of_ok found hfound := ⟨h.of_ok found.1 found.2 hfound, .done opened⟩
  of_error stop hstop :=
    have hpasses := h.of_error stop hstop
    ⟨⟨stop.rest, opened⟩, stop.rest, ⟨hpasses, .done opened⟩, List.suffix_rfl, hpasses.suffix,
      rfl⟩

end Crosses

namespace Value

open Predicate

variable {start text rest : List Char}

/-- A quoted text is read up to its closing quote. -/
theorem quoted_of_readQuoted {value : List Char} (h : readQuoted text = some (value, rest)) :
    ∃ front, text = front ++ rest ∧ Quoted front := by
  fun_induction readQuoted text generalizing value with
  | case1 => exact absurd h (by simp)
  | case2 text =>
    obtain ⟨-, rfl⟩ := Prod.mk.inj (Option.some.inj h)
    exact ⟨['"'], rfl, .close⟩
  | case3 c text ih =>
    obtain ⟨⟨more, rest'⟩, hmore, heq⟩ := Option.map_eq_some_iff.mp h
    obtain ⟨-, rfl⟩ := Prod.mk.inj heq
    obtain ⟨front, rfl, hfront⟩ := ih hmore
    exact ⟨'\\' :: c :: front, rfl, .escape hfront⟩
  | case4 => exact absurd h (by simp)
  | case5 c text hquote hescape hlast ih =>
    have hbackslash : c ≠ '\\' := by
      intro hc
      cases text with
      | nil => exact hlast hc rfl
      | cons d text => exact hescape d text hc rfl
    obtain ⟨⟨more, rest'⟩, hmore, heq⟩ := Option.map_eq_some_iff.mp h
    obtain ⟨-, rfl⟩ := Prod.mk.inj heq
    obtain ⟨front, rfl, hfront⟩ := ih hmore
    exact ⟨c :: front, rfl, .char hquote hbackslash hfront⟩

theorem crosses_readNumber {negative : Bool} (hstart : Passes start text []) :
    Crosses start (readNumber start negative text) := by
  rw [readNumber]
  split
  · exact .ok (hstart.trans (passes_dropWhile
      (fun c hc => isPlainChar_of_isNameChar (isNameChar_of_isDigit hc)) text))
  · exact .error (.done start)

theorem crosses_read (text : List Char) : Crosses text (read text) := by
  unfold read
  split
  · split
    · next rest value more hquoted =>
      obtain ⟨front, rfl, hfront⟩ := quoted_of_readQuoted hquoted
      exact .ok (.quoted hfront (.done more))
    · exact .error (.done _)
  · exact crosses_readNumber (.char (by decide) (.done _))
  · split
    · exact crosses_readNumber (.done _)
    split
    · exact .error (.done _)
    next found more hword =>
    have hpasses := passes_leadingWord? hword
    split
    · exact .ok hpasses
    split
    · exact .ok hpasses
    · exact .ok hpasses
  · exact .error (.done _)

end Value

namespace Argument

open Predicate

variable {text rest : List Char}

theorem crosses_readPlain (text : List Char) : Crosses text (readPlain text) :=
  (Value.crosses_read text).bind fun _ rest => .ok (.done rest)

theorem crosses_read (text : List Char) : Crosses text (read text) := by
  rw [read]
  split
  · next word rest hword =>
    have hrest : Passes text rest [] :=
      (passes_leadingWord? hword).trans (.char (by decide) (.done rest))
    refine Crosses.after ?_ hrest
    exact (Value.crosses_read rest).bind fun _ rest => .ok (.done rest)
  · exact crosses_readPlain text

theorem crosses_readColon (limit : Nat) (text : List Char) :
    Crosses text (readColon limit text) := by
  induction limit generalizing text with
  | zero => exact .error (.done text)
  | succ limit ih =>
    refine (crosses_readPlain text).bind fun a rest => ?_
    dsimp only
    split
    · next more =>
      have hmore : Passes (',' :: more) more [] := .char (by decide) (.done more)
      refine Crosses.after ?_ hmore
      exact (ih more).bind fun _ rest => .ok (.done rest)
    · exact .ok (.done rest)

/-- Arguments are read up to the parenthesis that closes them. -/
theorem follows_readParen (limit : Nat) (text : List Char) (opened : Opened) :
    Trail.Follows text ⟨text, opened.enter .arguments⟩ (fun found => ⟨found.2, opened⟩)
      (readParen limit text) (readParen limit text) := by
  induction limit generalizing text with
  | zero => exact .stop rfl List.suffix_rfl List.suffix_rfl
  | succ limit ih =>
    unfold readParen
    refine ((crosses_read _).follows.after (passes_skipBlanks text)).bind ?_
    rintro ⟨a, rest⟩ hrest
    have hblanks := passes_skipBlanks rest
    dsimp only
    split
    · next more hmore =>
      rw [hmore] at hblanks
      have hcomma : Passes rest more [] := hblanks.trans (.char (by decide) (.done more))
      exact (((ih more).after hcomma).mono hrest).bind fun _ _ => .done rfl
    · next more hmore =>
      rw [hmore] at hblanks
      have hclosing : Passes rest more [.closing .arguments] :=
        hblanks.trans (.paren (.closing .arguments) (.done more))
      exact (Trail.Follows.pass (.closing hclosing)).bind fun _ _ => .done rfl
    · exact .stop_after rfl hblanks hrest

end Argument


theorem Call.keeps_read {opened : Opened} (hopened : opened .arguments = 0) :
    Trail.Keeps opened Call.read Call.read := by
  intro text
  unfold read
  split
  · exact .stop rfl List.suffix_rfl List.suffix_rfl
  next word rest hword =>
  have hpasses := passes_leadingWord? hword
  dsimp only
  split
  · exact .stop rfl List.suffix_rfl List.suffix_rfl
  split
  · next more =>
    have hcolon : Predicate.Passes text more [] :=
      hpasses.trans (.char (by decide) (.done more))
    exact ((Argument.crosses_readColon _ more).follows.after hcolon).bind fun _ _ => .done rfl
  · next more =>
    have hopening : Predicate.Passes text more [.opening .arguments] :=
      hpasses.trans (.paren (.opening .arguments) (.done more))
    have hlimit : opened .arguments < Enclosure.limit .arguments := by
      simp [hopened, Enclosure.limit]
    refine (Trail.Follows.pass (.opening hopening hlimit)).bind fun _ hmore => ?_
    have hblanks := passes_skipBlanks more
    split
    · next rest hrest =>
      rw [hrest] at hblanks
      have hclosing : Predicate.Passes more rest [.closing .arguments] :=
        hblanks.trans (.paren (.closing .arguments) (.done rest))
      exact (Trail.Follows.pass (.closing hclosing)).bind fun _ _ => .done rfl
    · have hargs :=
        Argument.follows_readParen ((skipBlanks more).length + 1) (skipBlanks more) opened
      exact ((hargs.after hblanks).mono hmore).bind fun _ _ => .done rfl
  · exact Trail.Follows.after (.done rfl) hpasses

/-! ## Levels -/

namespace Predicate

variable {op : Connective} {text rest : List Char} {opened : Opened}
  {followed : List Char → Trail (Stop PredicateFault) (Parsed × List Char)}
  {operand : List Char → Reading PredicateFault (Parsed × List Char)}

theorem passes_joint? (h : op.joint? text = some rest) : Passes text rest [] := by
  cases op with
  | or => exact passes_keyword? (by decide) h
  | and => exact passes_keyword? (by decide) h
  | juxtaposition =>
    rw [Connective.joint?] at h
    split at h
    · exact absurd h (by simp)
    · obtain rfl := Option.some.inj h
      exact passes_skipBlanks text

theorem passes_countNots (limit : Nat) (text : List Char) :
    Passes text (countNots limit text).2 [] := by
  induction limit generalizing text with
  | zero => exact .done text
  | succ limit ih =>
    rw [countNots]
    split
    · exact .done text
    · next rest hrest => exact (passes_keyword? (by decide) hrest).trans (ih rest)

/-- A primary opens and closes a group around what stands in it. -/
theorem keeps_readPrimary
    {inner : Option (List Char → Trail (Stop PredicateFault) (Parsed × List Char))}
    {inner' : Option (List Char → Reading PredicateFault (Parsed × List Char))}
    (harguments : opened .arguments = 0)
    (hinner : Option.Rel (fun followed read => opened .group < maxDepth ∧
      Trail.Keeps (opened.enter .group) followed read) inner inner') :
    Trail.Keeps opened (readPrimary inner) (readPrimary inner') := by
  intro text
  have hstart := passes_skipBlanks text
  unfold readPrimary
  split
  · next inside hinside =>
    rw [hinside] at hstart
    cases hinner with
    | none => exact .stop_after rfl hstart List.suffix_rfl
    | some h =>
      obtain ⟨hlimit, hread⟩ := h
      have hopening : Passes text inside [.opening .group] :=
        hstart.trans (.paren (.opening .group) (.done inside))
      refine (Trail.Follows.pass (.opening hopening hlimit)).bind fun _ htext => ?_
      refine ((hread inside).mono htext).bind ?_
      rintro ⟨found, rest⟩ hrest
      have hblanks := passes_skipBlanks rest
      dsimp only
      split
      · next more hmore =>
        rw [hmore] at hblanks
        have hclosing : Passes rest more [.closing .group] :=
          hblanks.trans (.paren (.closing .group) (.done more))
        exact (Trail.Follows.pass (.closing hclosing)).bind fun _ _ => .done rfl
      · exact .stop_after rfl hblanks (hrest.trans htext)
  · exact ((Call.keeps_read harguments _).after hstart).bind fun _ _ => .done rfl

theorem keeps_readNegated (h : Trail.Keeps opened followed operand) :
    Trail.Keeps opened (readNegated followed) (readNegated operand) := by
  intro text
  have hnots := passes_countNots (skipBlanks text).length (skipBlanks text)
  refine Trail.Follows.after ?_ (passes_skipBlanks text)
  refine ((h _).after hnots).bind ?_
  rintro ⟨found, rest⟩ hrest
  dsimp only
  split
  · exact .stop rfl hrest List.suffix_rfl
  · exact .done rfl

theorem keeps_chain (h : Trail.Keeps opened followed operand) (limit : Nat) (first : Parsed) :
    Trail.Keeps opened (chain op followed limit first) (chain op operand limit first) := by
  induction limit generalizing first with
  | zero => exact fun text => .done rfl
  | succ limit ih =>
    intro text
    unfold chain
    split
    · exact .done rfl
    next start hjoint =>
    refine Trail.Follows.after ?_ (passes_joint? hjoint)
    refine (h start).bind ?_
    rintro ⟨next, rest⟩ hrest
    dsimp only
    split
    · exact .stop rfl hrest List.suffix_rfl
    · exact (ih _ rest).mono hrest

theorem keeps_readChain (h : Trail.Keeps opened followed operand) :
    Trail.Keeps opened (readChain op followed) (readChain op operand) := by
  intro text
  refine (h text).bind ?_
  rintro ⟨first, rest⟩ hrest
  exact (keeps_chain h _ first rest).mono hrest

/-- A predicate is read within the groups that may still be opened. -/
theorem keeps_readNested (nesting : Nat) (hgroup : opened .group + nesting ≤ maxDepth)
    (harguments : opened .arguments = 0) :
    Trail.Keeps opened (readNested nesting) (readNested nesting) := by
  have hlevels : ∀ {opened : Opened}
      {inner : Option (List Char → Trail (Stop PredicateFault) (Parsed × List Char))}
      {inner' : Option (List Char → Reading PredicateFault (Parsed × List Char))},
      Trail.Keeps opened (readPrimary inner) (readPrimary inner') →
        Trail.Keeps opened (readLevels inner) (readLevels inner') := fun h =>
    keeps_readChain (keeps_readChain (keeps_readChain (keeps_readNegated h)))
  induction nesting generalizing opened with
  | zero => exact hlevels (keeps_readPrimary harguments .none)
  | succ nesting ih =>
    have hinner : Trail.Keeps (opened.enter .group) (readNested nesting) (readNested nesting) := by
      refine ih ?_ ?_
      · rw [Opened.enter_self]
        omega
      · rw [Opened.enter_of_ne (by decide), harguments]
    exact hlevels (keeps_readPrimary harguments (.some ⟨by omega, hinner⟩))

/-- Followed through a text, the reader of predicates reads it to the end, or at least up to the
place of an error in it, and has never more open than may be. -/
theorem follows_read (text : List Char) :
    Trail.Follows text ⟨text, fun _ => 0⟩ (fun _ => ⟨[], fun _ => 0⟩) (read text)
      (read text) := by
  have hstart := passes_skipBlanks text
  unfold read
  split
  · next hempty =>
    rw [List.isEmpty_iff.mp hempty] at hstart
    exact .stop_after rfl hstart List.suffix_rfl
  refine (keeps_readNested maxDepth (Nat.le_of_eq (Nat.zero_add _)) rfl text).bind ?_
  rintro ⟨parsed, rest⟩ hrest
  have hblanks := passes_skipBlanks rest
  dsimp only
  split
  · next hempty =>
    rw [List.isEmpty_iff.mp hempty] at hblanks
    refine Trail.Follows.mono (Trail.Follows.after ?_ hblanks) hrest
    exact .done rfl
  · exact .stop_after rfl hblanks hrest

/-- A text from which a predicate is read is inert. -/
theorem inert_of_read {text : List Char} {p : Predicate} (h : read text = .ok p) :
    Inert text := by
  obtain ⟨front, rfl, hfront⟩ := ((follows_read text).of_ok p h).passes.exists_inert
  rwa [List.append_nil]

end Predicate

end PathSets
