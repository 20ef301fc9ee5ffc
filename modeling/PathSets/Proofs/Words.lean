import Mathlib.Data.List.TakeWhile
import Mathlib.Tactic.Common
import PathSets.Expression.Token
import PathSets.Predicate.Reader

/-!
# Words at the front of a text

A reader takes the longest run of characters that fit and stops at the first that
does not.  So a word is read back whatever follows it, as long as that does not
begin with a character of the word's own kind (`StopsBefore`).

Name characters are neither blank nor have they any other meaning in a text, which
`ne_of_isNameChar` and the lemmas after it record.
-/

namespace PathSets

/-! ## Characters -/

section Characters

variable {c : Char}

theorem isAlpha_iff : c.isAlpha = true ↔
    (65 ≤ c.toNat ∧ c.toNat ≤ 90) ∨ (97 ≤ c.toNat ∧ c.toNat ≤ 122) := by
  show (decide (c.val ≥ 'A'.val ∧ c.val ≤ 'Z'.val) ||
    (decide (c.val ≥ 'a'.val) && decide (c.val ≤ 'z'.val))) = true ↔ _
  simp only [Bool.or_eq_true, Bool.and_eq_true, decide_eq_true_eq, ge_iff_le,
    UInt32.le_iff_toNat_le]
  exact Iff.rfl

theorem toNat_of_isNameChar (h : isNameChar c = true) :
    (48 ≤ c.toNat ∧ c.toNat ≤ 57) ∨ (65 ≤ c.toNat ∧ c.toNat ≤ 90) ∨ c.toNat = 95 ∨
      (97 ≤ c.toNat ∧ c.toNat ≤ 122) := by
  simp only [isNameChar, Char.isAlphanum, Bool.or_eq_true, isAlpha_iff, Char.isDigit,
    Bool.and_eq_true, decide_eq_true_eq, beq_iff_eq, ge_iff_le, UInt32.le_iff_toNat_le] at h
  rcases h with ((h | h) | h) | rfl
  · exact Or.inr (Or.inl h)
  · exact Or.inr (Or.inr (Or.inr h))
  · exact Or.inl h
  · exact Or.inr (Or.inr (Or.inl rfl))

/-- A name character is none of the characters that are not. -/
theorem ne_of_isNameChar {d : Char} (h : isNameChar c = true) (hd : isNameChar d = false) :
    c ≠ d := by
  rintro rfl
  rw [h] at hd
  exact absurd hd (by simp)

theorem isBlank_eq_false_of_isNameChar (h : isNameChar c = true) : isBlank c = false := by
  have hrange := toNat_of_isNameChar h
  simp only [isBlank, Bool.or_eq_false_iff, Bool.and_eq_false_iff, decide_eq_false_iff_not,
    beq_eq_false_iff_ne]
  omega

theorem operatorKind?_eq_none_of_isNameChar (h : isNameChar c = true) :
    operatorKind? c = none := by
  have hne : ∀ d : Char, isNameChar d = false → c ≠ d := fun d => ne_of_isNameChar h
  simp [operatorKind?, hne '~' (by decide), hne '&' (by decide), hne '-' (by decide),
    hne '+' (by decide), hne '|' (by decide), hne '(' (by decide), hne ')' (by decide)]

theorem isNameChar_of_isDigit (h : c.isDigit = true) : isNameChar c = true := by
  simp [isNameChar, Char.isAlphanum, h]

theorem isDigit_eq_false_of_isNameStart (h : isNameStart c = true) : c.isDigit = false := by
  simp only [isNameStart, Bool.or_eq_true, isAlpha_iff, beq_iff_eq] at h
  rw [Bool.eq_false_iff]
  intro hdigit
  simp only [Char.isDigit, Bool.and_eq_true, decide_eq_true_eq, ge_iff_le,
    UInt32.le_iff_toNat_le] at hdigit
  have hle : c.toNat ≤ 57 := hdigit.2
  rcases h with (⟨hletter, -⟩ | ⟨hletter, -⟩) | rfl
  · omega
  · omega
  · exact absurd hle (by decide)

end Characters

/-! ## Runs of characters -/

/-- Whether a text is empty or begins with a character that does not fit. -/
def StopsBefore (fits : Char → Bool) (text : List Char) : Prop :=
  ∀ c ∈ text.head?, fits c = false

section Runs

variable {fits : Char → Bool} {run rest : List Char}

theorem stopsBefore_nil : StopsBefore fits [] := by simp [StopsBefore]

theorem stopsBefore_cons {c : Char} (h : fits c = false) : StopsBefore fits (c :: rest) := by
  simpa [StopsBefore] using h

theorem takeWhile_run (hrun : ∀ c ∈ run, fits c = true) (hrest : StopsBefore fits rest) :
    (run ++ rest).takeWhile fits = run := by
  rw [List.takeWhile_append_of_pos hrun]
  cases rest with
  | nil => simp
  | cons c rest => simp [hrest c rfl]

theorem dropWhile_run (hrun : ∀ c ∈ run, fits c = true) (hrest : StopsBefore fits rest) :
    (run ++ rest).dropWhile fits = rest := by
  rw [List.dropWhile_append_of_pos hrun]
  cases rest with
  | nil => simp
  | cons c rest => simp [hrest c rfl]

theorem skipBlanks_of_stopsBefore (h : StopsBefore isBlank rest) : skipBlanks rest = rest := by
  cases rest with
  | nil => rfl
  | cons c rest => simp [skipBlanks, h c rfl]

end Runs

/-! ## Identifiers -/

section Identifiers

variable {name rest : List Char}

theorem isIdentifier_iff :
    isIdentifier name = true ↔
      ∃ c more, name = c :: more ∧ isNameStart c = true ∧ ∀ d ∈ more, isNameChar d = true := by
  cases name <;> simp [isIdentifier]

theorem ne_nil_of_isIdentifier (h : isIdentifier name = true) : name ≠ [] := by
  rintro rfl
  exact absurd h (by simp [isIdentifier])

theorem isNameChar_of_isIdentifier (h : isIdentifier name = true) :
    ∀ c ∈ name, isNameChar c = true := by
  obtain ⟨c, more, rfl, hc, hmore⟩ := isIdentifier_iff.mp h
  intro d hd
  rcases List.mem_cons.mp hd with rfl | hd
  · exact isNameChar_of_isNameStart hc
  · exact hmore d hd

/-- A word is read up to where the name characters end. -/
theorem leadingWord?_append (h : isIdentifier name = true)
    (hrest : StopsBefore isNameChar rest) : leadingWord? (name ++ rest) = some (name, rest) := by
  obtain ⟨c, more, rfl, hc, hmore⟩ := isIdentifier_iff.mp h
  simp only [List.cons_append, leadingWord?, hc, if_true, takeWhile_run hmore hrest,
    dropWhile_run hmore hrest]

/-- A word stops any run of characters that has no name characters. -/
theorem stopsBefore_of_isIdentifier {fits : Char → Bool} (h : isIdentifier name = true)
    (hfits : ∀ c, isNameChar c = true → fits c = false) : StopsBefore fits (name ++ rest) := by
  obtain ⟨c, more, rfl, hc, _⟩ := isIdentifier_iff.mp h
  exact stopsBefore_cons (hfits c (isNameChar_of_isNameStart hc))

end Identifiers

/-! ## Keywords -/

section Keywords

variable {word : String} {name rest : List Char}

theorem after?_eq_some {front text rest : List Char} :
    after? front text = some rest ↔ text = front ++ rest := by
  induction front generalizing text with
  | nil => simp [after?]
  | cons f front ih =>
    cases text with
    | nil => simp [after?]
    | cons c text =>
      rw [after?]
      split
      · next heq => simp [ih, heq]
      · next hne => simpa using fun h : c = f => absurd h.symm hne

/-- A keyword is the next word only if no longer word begins there. -/
theorem keyword?_eq_none (h : isIdentifier name = true) (hne : name ≠ word.toList)
    (hword : ∀ c ∈ word.toList, isNameChar c = true) (hrest : StopsBefore isNameChar rest) :
    keyword? word (name ++ rest) = none := by
  have hblank : StopsBefore isBlank (name ++ rest) :=
    stopsBefore_of_isIdentifier h fun _ => isBlank_eq_false_of_isNameChar
  rw [keyword?, skipBlanks_of_stopsBefore hblank, Option.filter_eq_none_iff]
  intro more hmore hends
  -- Both words are the longest run of name characters at the front.
  have hstop : StopsBefore isNameChar more := by
    intro c hc
    rw [Option.mem_def] at hc
    simpa [hc] using hends
  have heq := after?_eq_some.mp hmore
  have hname : (name ++ rest).takeWhile isNameChar = name :=
    takeWhile_run (isNameChar_of_isIdentifier h) hrest
  rw [heq, takeWhile_run hword hstop] at hname
  exact hne hname.symm

/-- A text that begins with another character than the keyword has no keyword there. -/
theorem keyword?_cons_eq_none {c : Char} (hblank : isBlank c = false)
    (hc : word.toList.head? ≠ some c) (hword : word.toList ≠ []) :
    keyword? word (c :: rest) = none := by
  have hskip : skipBlanks (c :: rest) = c :: rest :=
    skipBlanks_of_stopsBefore (stopsBefore_cons hblank)
  obtain ⟨f, front, hfront⟩ := List.exists_cons_of_ne_nil hword
  have hne : f ≠ c := by
    rintro rfl
    exact hc (by simp [hfront])
  rw [keyword?, hskip, hfront, after?, if_neg hne]
  rfl

end Keywords

end PathSets
