import PathSets.Glob.RegexText
import PathSets.Predicate.Library

/-!
# What regular expressions match

`Regex.Matches` says which texts a regular expression matches, piece by piece from
the left.  The matcher works from the right and keeps one mark for each suffix of
the text; `marks_iff_matches` says that each mark is right, and so the matcher
decides the relation (`Regex.accepts_iff_matches`).

`Glob.Fits` is the relation for globs, as the engine of a library has it.  A standard engine
(`RegexEngine.IsStandard`) may refuse some regular expressions, but matches by those that it
accepts as it is said here.
-/

namespace PathSets

namespace Regex

/-- The texts that a regular expression matches as a whole. -/
inductive Matches : Regex → List Char → Prop where
  | done : Matches [] []
  | once {atom pieces c text} (hc : atom.accepts c = true) (rest : Matches pieces text) :
      Matches (⟨atom, false⟩ :: pieces) (c :: text)
  | stop {atom pieces text} (rest : Matches pieces text) :
      Matches (⟨atom, true⟩ :: pieces) text
  | again {atom pieces c text} (hc : atom.accepts c = true)
      (rest : Matches (⟨atom, true⟩ :: pieces) text) :
      Matches (⟨atom, true⟩ :: pieces) (c :: text)

variable {atom : Atom} {pieces r : Regex} {text : List Char} {c : Char}

theorem matches_nil_iff : Matches [] text ↔ text = [] := by
  constructor
  · intro h
    cases h
    rfl
  · rintro rfl
    exact .done

theorem not_matches_once_nil : ¬Matches (⟨atom, false⟩ :: pieces) [] := nofun

theorem matches_once_cons_iff :
    Matches (⟨atom, false⟩ :: pieces) (c :: text) ↔
      atom.accepts c = true ∧ Matches pieces text := by
  constructor
  · intro h
    cases h with
    | once hc rest => exact ⟨hc, rest⟩
  · rintro ⟨hc, hrest⟩
    exact .once hc hrest

theorem matches_starred_nil_iff :
    Matches (⟨atom, true⟩ :: pieces) [] ↔ Matches pieces [] := by
  constructor
  · intro h
    cases h with
    | stop rest => exact rest
  · exact .stop

theorem matches_starred_cons_iff :
    Matches (⟨atom, true⟩ :: pieces) (c :: text) ↔
      Matches pieces (c :: text) ∨
        atom.accepts c = true ∧ Matches (⟨atom, true⟩ :: pieces) text := by
  constructor
  · intro h
    cases h with
    | stop rest => exact Or.inl rest
    | again hc rest => exact Or.inr ⟨hc, rest⟩
  · rintro (h | ⟨hc, hrest⟩)
    · exact .stop h
    · exact .again hc hrest

/-- The marks for a text end with the marks for its tail. -/
theorem exists_marks_cons (r : Regex) (c : Char) (text : List Char) :
    ∃ mark, r.marks (c :: text) = mark :: r.marks text := by
  induction r with
  | nil => exact ⟨false, rfl⟩
  | cons piece pieces ih =>
    obtain ⟨mark, hmark⟩ := ih
    simp only [marks, hmark]
    split <;> exact ⟨_, rfl⟩

/-- The first mark tells whether the whole text is matched. -/
theorem marks_iff_matches (r : Regex) (text : List Char) :
    (r.marks text).headD false = true ↔ Matches r text := by
  induction r generalizing text with
  | nil =>
    rw [matches_nil_iff]
    cases text <;> simp [marks, emptySuffixes]
  | cons piece pieces ih =>
    obtain ⟨atom, starred⟩ := piece
    cases starred with
    | false =>
      cases text with
      | nil => simp [marks, stepOnce, not_matches_once_nil]
      | cons c text =>
        obtain ⟨mark, hmarks⟩ := exists_marks_cons pieces c text
        rw [matches_once_cons_iff, ← ih]
        simp [marks, hmarks, stepOnce]
    | true =>
      -- A star goes on along the text, one character at a time.
      induction text with
      | nil =>
        rw [matches_starred_nil_iff, ← ih]
        simp [marks, stepStarred]
      | cons c text ihtext =>
        obtain ⟨mark, hmarks⟩ := exists_marks_cons pieces c text
        rw [matches_starred_cons_iff, ← ih, ← ihtext, hmarks]
        simp [marks, hmarks, stepStarred]

/-- The matcher decides the relation. -/
theorem accepts_iff_matches (r : Regex) (text : List Char) :
    r.accepts text = true ↔ Matches r text :=
  marks_iff_matches r text

end Regex

/-! ## Engines -/

/-- Whether the engine matches by each regular expression that it accepts as here.  Which
ones it accepts is its own matter. -/
def RegexEngine.IsStandard (engine : RegexEngine) : Prop :=
  ∀ text r matcher, Regex.read text = some r → engine.compile? text = some matcher →
    ∀ name, matcher name = true ↔ r.Matches name

theorem RegexEngine.isStandard_basic : basic.IsStandard := by
  intro text r matcher hread hcompile name
  have hbasic : basic.compile? text = (Regex.read text).map Regex.accepts := rfl
  rw [hbasic, hread, Option.map_some, Option.some.injEq] at hcompile
  rw [← hcompile]
  exact r.accepts_iff_matches name

/-- Whether a name fits a glob: the engine accepts the regular expression for the glob and
matches the name by it. -/
def Glob.Fits (library : Library) (shape name : String) : Prop :=
  ∃ matcher, library.engine.compile? (toRegexText shape.toList) = some matcher ∧
    matcher name.toList = true

/-- By the matcher for a glob it is decided which names fit. -/
theorem Glob.fits_iff_of_compile {library : Library} {shape name : String}
    {matcher : List Char → Bool}
    (h : library.engine.compile? (toRegexText shape.toList) = some matcher) :
    Fits library shape name ↔ matcher name.toList = true := by
  rw [Fits, h]
  simp only [Option.some.injEq, exists_eq_left']

end PathSets
