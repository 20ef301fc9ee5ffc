import PathSets.Expression.Reader
import PathSets.Proofs.PatternReading
import PathSets.Proofs.PredicateSource

/-!
# Where readers stop

A reader that stops hands back what it has not read, and that is an end of the text it was
given (`StopsIn`).  So the place of every fault lies between two characters of the text, or
at its end.

For predicates this is known from following their reader (`Predicate.follows_read`).  Each reader
of patterns keeps it if the readers that it calls do.  One that goes on after another also needs
that the other has left an end of the text, which follows from how elements are split off.
-/

namespace PathSets

variable {φ α : Type}

/-- Whether a reader, if it stops, stops in a text. -/
abbrev StopsIn (text : List Char) (result : Reading φ α) : Prop :=
  FailsOnly (fun stop => stop.rest <:+ text) result

section StopsIn

variable {text rest middle : List Char} {result : Reading φ α} {fault : φ}

theorem stopsIn_ok {a : α} : StopsIn text (.ok a : Reading φ α) :=
  .ok

theorem stopsIn_error (h : rest <:+ text) : StopsIn text (.error ⟨fault, rest⟩ : Reading φ α) :=
  .error h

theorem stopsIn_error_self : StopsIn text (.error ⟨fault, text⟩ : Reading φ α) :=
  stopsIn_error List.suffix_rfl

/-- What stops in an end of a text stops in the text. -/
theorem StopsIn.mono (h : StopsIn middle result) (hmiddle : middle <:+ text) :
    StopsIn text result :=
  FailsOnly.mono h fun _ hrest => hrest.trans hmiddle

end StopsIn

/-- The reader of predicates stops in the text. -/
theorem Predicate.stopsIn_read (text : List Char) : StopsIn text (read text) := by
  constructor
  intro stop hstop
  obtain ⟨-, place, -, -, hplace, rfl⟩ := (follows_read text).of_error stop hstop
  exact hplace

/-! ## Patterns -/

namespace Pattern

variable {p : Pattern} {text : List Char} {limit : Nat}

/-- An element is split off in front of what is left. -/
theorem exists_splitElement (text : List Char) :
    ∃ element rest, splitElement text = (element, rest) ∧ element ++ rest = text :=
  ⟨_, _, rfl, splitElementFrom_fst_append_snd {} text⟩

theorem stopsIn_splitPredicate (element after : List Char) :
    StopsIn (element ++ after) (splitPredicate element after) := by
  have hbrace : element.dropWhile (· != '{') ++ after <:+ element ++ after :=
    List.suffix_append_self_iff.mpr (List.dropWhile_suffix _)
  rw [splitPredicate]
  split
  · exact stopsIn_ok
  next brace body hbody =>
  rw [hbody] at hbrace
  split
  · next hclose =>
    -- The predicate stands between its braces, and what follows it is the closing one.
    have hinside : body.dropLast ++ '}' :: after <:+ element ++ after := by
      have hbodyClosed : body.dropLast ++ ['}'] = body :=
        List.dropLast_append_getLast? _ hclose
      rw [List.append_cons, hbodyClosed]
      exact (List.suffix_cons brace (body ++ after)).trans hbrace
    split
    · exact stopsIn_ok
    · next stop hstop =>
      have hrest := (Predicate.stopsIn_read _).kind_of_error stop hstop
      exact stopsIn_error ((List.suffix_append_self_iff.mpr hrest).trans hinside)
  · exact stopsIn_error hbrace

theorem stopsIn_accept {result : Except Refused Pattern} : StopsIn text (accept text result) := by
  cases result with
  | ok p => exact stopsIn_ok
  | error refused => exact stopsIn_error_self

theorem stopsIn_readProperty (p : Pattern) (text : List Char) :
    StopsIn text (readProperty p text) := by
  obtain ⟨element, rest, hsplit, rfl⟩ := exists_splitElement text
  rw [readProperty, hsplit]
  dsimp only
  split
  · exact stopsIn_error (List.suffix_append element rest)
  next hrest =>
  obtain rfl : rest = [] := by simpa using hrest
  refine (stopsIn_splitPredicate element []).bind ?_
  rintro ⟨name, condition⟩ _
  dsimp only
  split
  · exact stopsIn_error_self
  split
  · exact stopsIn_error_self
  · exact stopsIn_accept

theorem stopsIn_readElement (p : Pattern) (afterSlash : Bool) (element rest : List Char) :
    StopsIn (element ++ rest) (readElement p afterSlash (element ++ rest) element rest) := by
  rw [readElement]
  split
  · split
    · exact stopsIn_error_self
    · exact stopsIn_ok
  · exact (stopsIn_splitPredicate element rest).bind fun _ _ => stopsIn_accept

theorem stopsIn_readAfter (hnext : ∀ p afterSlash text,
    StopsIn text (readElements limit p afterSlash text)) (p : Pattern) (rest : List Char) :
    StopsIn rest (readAfter limit p rest) := by
  unfold readAfter
  split
  · next property => exact (stopsIn_readProperty p property).mono (List.suffix_cons _ _)
  · next more =>
    have hmore : more <:+ '/' :: '/' :: more := List.suffix_append ['/', '/'] more
    split
    · exact stopsIn_error hmore
    · exact (hnext _ _ more).mono hmore
  · next more _ =>
    split
    · exact stopsIn_error_self
    · exact (hnext _ _ more).mono (List.suffix_cons _ _)
  · exact stopsIn_ok

theorem stopsIn_readElements (limit : Nat) (p : Pattern) (afterSlash : Bool) (text : List Char) :
    StopsIn text (readElements limit p afterSlash text) := by
  induction limit generalizing p afterSlash text with
  | zero =>
    cases text with
    | nil => exact stopsIn_ok
    | cons c text => exact stopsIn_error_self
  | succ limit ih =>
    by_cases hne : text = []
    · subst hne
      exact stopsIn_ok
    rw [readElements_succ hne]
    obtain ⟨element, rest, hsplit, rfl⟩ := exists_splitElement text
    rw [hsplit]
    refine (stopsIn_readElement p afterSlash element rest).bind fun q _ => ?_
    exact (stopsIn_readAfter ih q rest).mono (List.suffix_append element rest)

theorem stopsIn_readAfterLeading {next : Pattern → List Char → Reading PatternFault Pattern}
    (hnext : ∀ text, StopsIn text (next p text)) (text : List Char) :
    StopsIn text (readAfterLeading next p text) := by
  unfold readAfterLeading
  split
  · next more =>
    exact (stopsIn_readElements ..).mono (List.suffix_append ['/', '/'] more)
  · next more _ => exact (hnext more).mono (List.suffix_cons _ _)
  · exact stopsIn_ok

theorem stopsIn_readLeading (limit : Nat) (p : Pattern) (first : Bool) (text : List Char) :
    StopsIn text (readLeading limit p first text) := by
  induction limit generalizing p first text with
  | zero =>
    cases text with
    | nil => exact stopsIn_ok
    | cons c text => exact stopsIn_error_self
  | succ limit ih =>
    by_cases hne : text = []
    · subst hne
      exact stopsIn_ok
    rw [readLeading]
    · split
      · next rest hup =>
        split
        · refine stopsIn_accept.bind fun q _ => ?_
          have hrest : rest <:+ text := ⟨_, (after?_eq_some.mp hup).symm⟩
          exact (stopsIn_readAfterLeading (fun _ => ih ..) rest).mono hrest
        · exact stopsIn_readElements ..
      · next rest _ hhere =>
        split
        · split
          · have hrest : rest <:+ text := ⟨_, (after?_eq_some.mp hhere).symm⟩
            exact (stopsIn_readAfterLeading (fun _ => ih ..) rest).mono hrest
          · exact stopsIn_error_self
        · exact stopsIn_readElements ..
      · exact stopsIn_readElements ..
    · exact hne

/-- The reader of patterns stops in the text. -/
theorem stopsIn_read (text : List Char) : StopsIn text (read text) := by
  unfold read
  split
  · exact stopsIn_error_self
  · next more => exact (stopsIn_readElements ..).mono (List.suffix_append ['/', '/'] more)
  · next more => exact (stopsIn_readElements ..).mono (List.suffix_cons _ _)
  · exact stopsIn_readLeading ..

end Pattern

/-! ## References -/

/-- The reader of references stops in the text. -/
theorem Reference.stopsIn_read (text : List Char) : StopsIn text (read text) := by
  have hbody : text.tail <:+ text := List.tail_suffix text
  rw [read]
  split
  · exact stopsIn_ok
  split
  · exact stopsIn_error_self
  next c name hname =>
  have hsuffix : name <:+ text := by
    have hcolon : c :: name <:+ text.tail := hname ▸ List.dropWhile_suffix _
    exact ((List.suffix_cons c name).trans hcolon).trans hbody
  split
  · exact stopsIn_error hbody
  split
  · exact stopsIn_error hbody
  split
  · exact stopsIn_ok
  · exact stopsIn_error hsuffix

end PathSets
