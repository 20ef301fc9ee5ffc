import PathSets.Proofs.ExpressionSource
import PathSets.Proofs.TokenText

/-!
# Where syntax errors are

A syntax error is located in a text if it names the text and a place in it: a byte offset
that lies neither beyond the end of the text nor within a character
(`SyntaxError.LocatedIn`).

The offset of a stop is such a place because the reader has stopped in the text
(`StopsIn`).  Readers of expressions see tokens instead of the text.  Every token lies in
the text at its offset (`Token.liesIn_of_scan`), and these readers stop at one of them or
within it (`Expression.follows_readTokens`).  So a fault at a token lies in the text, and so
does one within a token, where a pattern or a reference stops.

`parse_answers` puts the three parsers together: each text has a value or an error that is
located in it.
-/

namespace PathSets

/-! ## Places in a text -/

/-- Whether a byte offset lies between two characters of a text, or at one of its ends. -/
def IsBoundary (text : List Char) (offset : Nat) : Prop :=
  ∃ front back, text = front ++ back ∧ offset = utf8Size front

theorem utf8Size_eq (text : List Char) : utf8Size text = (String.ofList text).utf8ByteSize := by
  induction text with
  | nil => rfl
  | cons c text ih =>
    rw [utf8Size_cons, ih, String.ofList_cons, String.utf8ByteSize_append,
      String.utf8ByteSize_singleton]

/-- Boundaries are the valid positions of a string. -/
theorem isBoundary_iff {text : String} {offset : Nat} :
    IsBoundary text.toList offset ↔ String.Pos.Raw.IsValid text ⟨offset⟩ := by
  rw [String.Pos.Raw.isValid_iff_exists_append]
  constructor
  · rintro ⟨front, back, htext, rfl⟩
    refine ⟨String.ofList front, String.ofList back, ?_, ?_⟩
    · rw [← String.ofList_append, ← htext, String.ofList_toList]
    · rw [utf8Size_eq]
      rfl
  · rintro ⟨front, back, rfl, hoffset⟩
    refine ⟨front.toList, back.toList, String.toList_append, ?_⟩
    rw [utf8Size_eq, String.ofList_toList]
    exact congrArg String.Pos.Raw.byteIdx hoffset

section Boundaries

variable {text rest : List Char}

theorem isBoundary_end (text : List Char) : IsBoundary text (utf8Size text) :=
  ⟨text, [], (List.append_nil text).symm, rfl⟩

/-- The bytes before an end of a text end at a boundary. -/
theorem isBoundary_of_suffix (h : rest <:+ text) :
    IsBoundary text (utf8Size text - utf8Size rest) := by
  obtain ⟨front, rfl⟩ := h
  refine ⟨front, rest, rfl, ?_⟩
  rw [utf8Size_append, Nat.add_sub_cancel]

end Boundaries

/-- Whether an error is about a text and at a place in it: not beyond its end, and not within
a character. -/
structure SyntaxError.LocatedIn {φ : Type} (error : SyntaxError φ) (text : String) : Prop where
  input : error.input = text
  offset_le : error.offset ≤ text.utf8ByteSize
  isValid : String.Pos.Raw.IsValid text ⟨error.offset⟩

theorem SyntaxError.locatedIn_of_isBoundary {φ : Type} {fault : φ} {text : String} {offset : Nat}
    (h : IsBoundary text.toList offset) : LocatedIn ⟨offset, fault, text⟩ text where
  input := rfl
  offset_le := (isBoundary_iff.mp h).le_rawEndPos
  isValid := isBoundary_iff.mp h

/-- Whether a parser has an answer for a text: a value, or an error that is located in it. -/
def Answers {φ α : Type} (text : String) (result : Except (SyntaxError φ) α) : Prop :=
  (∃ value, result = .ok value) ∨ ∃ error, result = .error error ∧ error.LocatedIn text

/-- A parser that reports a stop in the text has an answer. -/
theorem StopsIn.answers {φ α : Type} {text : String} {result : Reading φ α}
    (h : StopsIn text.toList result) : Answers text (result.mapError (·.toError text)) := by
  cases result with
  | ok value => exact Or.inl ⟨value, rfl⟩
  | error stop =>
    have hrest := h.kind_of_error stop rfl
    exact Or.inr ⟨_, rfl, SyntaxError.locatedIn_of_isBoundary (isBoundary_of_suffix hrest)⟩

/-! ## Tokens -/

/-- Whether a token stands in a text at its offset. -/
def Token.LiesIn (token : Token) (text : List Char) : Prop :=
  ∃ front back, text = front ++ (token.chars ++ back) ∧ token.offset = utf8Size front

namespace OpenGroup

variable {g g' : OpenGroup} {c : Char} {text : List Char}

/-- A group that goes on still begins where it was opened. -/
theorem start_of_step (h : g.step c = some g') : g'.start = g.start := by
  cases g <;> grind [step, start]

theorem start_of_ofText? (h : ofText? text = some g) : g.start = text := by
  unfold ofText? at h
  split at h
  · obtain rfl := Option.some.inj h
    rfl
  · obtain rfl := Option.some.inj h
    rfl
  · exact absurd h (by simp)

end OpenGroup

namespace Token

variable {token : Token} {tokens : List Token} {text literal rest start front : List Char}
  {group : Option OpenGroup} {limit offset : Nat}

theorem LiesIn.isBoundary (h : token.LiesIn text) : IsBoundary text token.offset := by
  obtain ⟨front, back, htext, hoffset⟩ := h
  exact ⟨front, _, htext, hoffset⟩

/-- A stop within a token lies in the text. -/
theorem LiesIn.isBoundary_add (h : token.LiesIn text) (hrest : rest <:+ token.chars) :
    IsBoundary text (token.offset + (utf8Size token.chars - utf8Size rest)) := by
  obtain ⟨front, back, rfl, hoffset⟩ := h
  obtain ⟨more, before, hchars, hmore⟩ := isBoundary_of_suffix hrest
  refine ⟨front ++ more, before ++ back, by rw [hchars]; simp, ?_⟩
  rw [hmore, hoffset, utf8Size_append]

/-- A literal is split off in front of what is left. -/
theorem append_of_splitLiteral (h : splitLiteral group text = .ok (literal, rest)) :
    literal ++ rest = text := by
  induction text generalizing group literal with
  | nil =>
    cases group with
    | none =>
      obtain ⟨rfl, rfl⟩ := Prod.mk.inj (Except.ok.inj h)
      rfl
    | some g => exact absurd h (by simp [splitLiteral])
  | cons c text ih =>
    rw [splitLiteral.eq_def] at h
    dsimp only at h
    split at h
    · obtain ⟨rfl, rfl⟩ := Prod.mk.inj (Except.ok.inj h)
      rfl
    · obtain ⟨⟨more, rest'⟩, hmore, hresult⟩ := bind_eq_ok.mp h
      obtain ⟨rfl, rfl⟩ := Prod.mk.inj (Except.ok.inj hresult)
      rw [List.cons_append, ih hmore]

/-- A literal only fails where a group begins that stays open. -/
theorem failsOnly_splitLiteral (group : Option OpenGroup) (text : List Char) :
    FailsOnly (fun start => (∃ g ∈ group, g.start = start) ∨ start <:+ text)
      (splitLiteral group text) := by
  induction text generalizing group with
  | nil =>
    cases group with
    | none => exact .ok
    | some g => exact .error (Or.inl ⟨g, rfl, rfl⟩)
  | cons c text ih =>
    rw [splitLiteral.eq_def]
    dsimp only
    split
    · exact .ok
    refine ((ih _).mono fun start hstart => ?_).bind fun _ _ => .ok
    rcases hstart with ⟨g, hg, rfl⟩ | hsuffix
    · cases group with
      | none =>
        rw [OpenGroup.start_of_ofText? hg]
        exact Or.inr List.suffix_rfl
      | some g' => exact Or.inl ⟨g', rfl, (OpenGroup.start_of_step hg).symm⟩
    · exact Or.inr (hsuffix.trans (List.suffix_cons c text))

theorem failsOnly_scanFrom (limit offset : Nat) (text : List Char) :
    FailsOnly (· <:+ text) (scanFrom limit offset text) := by
  induction limit generalizing offset text with
  | zero => cases text <;> exact .ok
  | succ limit ih =>
    cases text with
    | nil => exact .ok
    | cons c text =>
      have htext : text <:+ c :: text := List.suffix_cons c text
      rw [scanFrom]
      split
      · exact (ih _ text).mono fun _ hstart => hstart.trans htext
      split
      · exact ((ih _ text).mono fun _ hstart => hstart.trans htext).bind fun _ _ => .ok
      have hsplit : FailsOnly (· <:+ c :: text) (splitLiteral none (c :: text)) := by
        refine (failsOnly_splitLiteral none _).mono ?_
        rintro start (⟨g, hg, -⟩ | hsuffix)
        · exact absurd hg (by simp)
        · exact hsuffix
      refine hsplit.bind ?_
      rintro ⟨literal, rest⟩ hliteral
      have hrest : rest <:+ c :: text := ⟨literal, append_of_splitLiteral hliteral⟩
      exact ((ih _ rest).mono fun _ hstart => hstart.trans hrest).bind fun _ _ => .ok

/-- Scanning goes on with the right offset, and so each token stands where it says. -/
theorem liesIn_of_scanFrom (h : scanFrom limit (utf8Size front) rest = .ok tokens) :
    ∀ token ∈ tokens, token.LiesIn (front ++ rest) := by
  induction limit generalizing front rest tokens with
  | zero =>
    cases rest <;>
    · obtain rfl := Except.ok.inj h
      exact nofun
  | succ limit ih =>
    -- A token at the front stands there, and the tokens after it are scanned further on.
    have hnext : ∀ (chars : List Char) {more : List Char} {others : List Token},
        scanFrom limit (utf8Size front + utf8Size chars) more = .ok others →
        ∀ token ∈ others, token.LiesIn (front ++ (chars ++ more)) := by
      intro chars more others hothers
      rw [← utf8Size_append] at hothers
      rw [← List.append_assoc]
      exact ih hothers
    cases rest with
    | nil =>
      obtain rfl := Except.ok.inj h
      exact nofun
    | cons c rest =>
      rw [scanFrom] at h
      split at h
      · exact hnext [c] h
      split at h
      · next kind hkind =>
        obtain ⟨others, hothers, hresult⟩ := bind_eq_ok.mp h
        obtain rfl := Except.ok.inj hresult
        exact List.forall_mem_cons.mpr ⟨⟨front, rest, rfl, rfl⟩, hnext [c] hothers⟩
      · obtain ⟨⟨literal, more⟩, hliteral, h⟩ := bind_eq_ok.mp h
        obtain ⟨others, hothers, hresult⟩ := bind_eq_ok.mp h
        obtain rfl := Except.ok.inj hresult
        rw [← append_of_splitLiteral hliteral]
        exact List.forall_mem_cons.mpr ⟨⟨front, more, rfl, rfl⟩, hnext literal hothers⟩

theorem liesIn_of_scan (h : scan text = .ok tokens) : ∀ token ∈ tokens, token.LiesIn text := by
  have hfront : scanFrom text.length (utf8Size []) text = .ok tokens := h
  exact liesIn_of_scanFrom hfront

end Token

/-! ## Expressions -/

/-- Whether a fault among tokens is at a place in the text. -/
def Misplaced.LiesIn (misplaced : Misplaced) (text : List Char) : Prop :=
  ∀ offset ∈ misplaced.offset?, IsBoundary text offset

/-- A fault at a token, or within one, is where the token stands. -/
theorem Misplaced.IsAt.liesIn {misplaced : Misplaced} {text : List Char} {tokens : List Token}
    (h : misplaced.IsAt tokens) (htokens : ∀ token ∈ tokens, token.LiesIn text) :
    misplaced.LiesIn text := by
  intro offset hoffset
  cases h with
  | atHead fault =>
    obtain ⟨token, hhead, rfl⟩ := Option.map_eq_some_iff.mp hoffset
    exact (htokens token (List.mem_of_head? hhead)).isBoundary
  | @inToken token stop hrest tokens =>
    obtain rfl := Option.some.inj hoffset
    exact (htokens token List.mem_cons_self).isBoundary_add hrest

namespace Expression

/-- The reader of expressions fails at a place in the text. -/
theorem liesIn_of_readTokens {text : List Char} {tokens : List Token} {misplaced : Misplaced}
    (htokens : ∀ token ∈ tokens, token.LiesIn text) (h : readTokens tokens = .error misplaced) :
    misplaced.LiesIn text := by
  obtain ⟨-, place, -, -, hplace, hat⟩ := (follows_readTokens tokens).of_error misplaced h
  exact Misplaced.IsAt.liesIn hat fun token htoken => htokens token (hplace.subset htoken)

/-- The parser of expressions has an answer: an unterminated group, a fault among the tokens
and the end of the text are all places in the text. -/
theorem answers_parse (text : String) : Answers text (parse text) := by
  rw [parse]
  split
  · next start hstart =>
    have hsuffix := (Token.failsOnly_scanFrom _ _ _).kind_of_error start hstart
    exact Or.inr ⟨_, rfl, SyntaxError.locatedIn_of_isBoundary (isBoundary_of_suffix hsuffix)⟩
  · next tokens htokens =>
    cases hread : readTokens tokens with
    | ok e => exact Or.inl ⟨e, rfl⟩
    | error misplaced =>
      have hplace := liesIn_of_readTokens (Token.liesIn_of_scan htokens) hread
      refine Or.inr ⟨_, rfl, SyntaxError.locatedIn_of_isBoundary ?_⟩
      cases hoffset : misplaced.offset? with
      | none => exact isBoundary_end _
      | some offset => exact hplace offset hoffset

end Expression

/-- Every text has an answer as an expression, as a pattern and as a predicate: what it
spells, or an error at a place in the text. -/
theorem parse_answers (text : String) :
    Answers text (Expression.parse text) ∧ Answers text (Pattern.parse text) ∧
      Answers text (Predicate.parse text) :=
  ⟨Expression.answers_parse text, (Pattern.stopsIn_read _).answers,
    (Predicate.stopsIn_read _).answers⟩

/-- Offsets count bytes, of which `é` has two. -/
example : Predicate.parse "a(\"é\" b)" = .error ⟨7, .expectedComma, "a(\"é\" b)"⟩ := by
  decide +kernel

end PathSets
