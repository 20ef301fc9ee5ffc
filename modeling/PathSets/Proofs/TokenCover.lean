import PathSets.Proofs.OutsideGroups

/-!
# Tokens cover their text

Scanning an expression loses nothing of its text but blanks.  `Token.Tiling` says how the tokens
of a text follow each other: blanks between them are left out, an operator is one character, and
a literal goes on up to the first character outside of groups that would end it
(`Token.IsLiteralBetween`).

Splitting off a literal keeps account of the open group character by character
(`Token.splitLiteral_step`).  So it ends outside of groups (`Token.splitLiteral_ok_run`) or fails in
the one that stays open (`Token.splitLiteral_error_stays`).  Scanning therefore gives a tiling
(`Token.tiling_of_scanFrom`) or fails likewise (`Token.leavesOpen_scanFrom`), and what is asked of
tokens can be read off a tiling from its front to its end.
-/

namespace PathSets

namespace Token

open OpenGroup

variable {group : Option OpenGroup} {c : Char} {kind : TokenKind} {token : Token}
  {tokens : List Token} {text front back literal rest start : List Char} {limit offset : Nat}

/-! ## Literals -/

/-- A character that ends a literal does so outside of groups, and is no part of it. -/
theorem splitLiteral_ends (h : (group.isNone && endsLiteral c) = true) (text : List Char) :
    group = none ∧ endsLiteral c = true ∧ splitLiteral group (c :: text) = .ok ([], c :: text) := by
  obtain ⟨hgroup, hc⟩ := Bool.and_eq_true_iff.mp h
  rw [Option.isNone_iff_eq_none] at hgroup
  subst hgroup
  exact ⟨rfl, hc, splitLiteral_stop (stopsBefore_cons (by simp [hc]))⟩

/-- One more character of a literal.  The group that is open then is the one after that
character, and if it has just been opened it begins there. -/
theorem splitLiteral_step (h : (group.isNone && endsLiteral c) = false) (text : List Char) :
    ∃ next, splitLiteral group (c :: text) = (splitLiteral next text).map (prepend [c]) ∧
      (∀ more, after next more = none ↔ after group (c :: more) = none) ∧
      ∀ g ∈ next, (group = none ∧ g.start = c :: text) ∨ ∃ g' ∈ group, g.start = g'.start := by
  cases group with
  | none =>
    refine ⟨ofText? (c :: text), splitLiteral_cons h, fun more => ?_, fun g hg => ?_⟩
    · rw [after, ofText?_cons, after_startAt_eq_none]
    · exact Or.inl ⟨rfl, start_of_ofText? hg⟩
  | some g =>
    exact ⟨g.step c, splitLiteral_cons h, fun _ => Iff.rfl,
      fun g' hg' => Or.inr ⟨g, rfl, start_of_step hg'⟩⟩

/-- A literal ends outside of groups, before a character that ends it or at the end of the text,
and no such character stands in it outside of groups. -/
theorem splitLiteral_ok_run (h : splitLiteral group text = .ok (literal, rest)) :
    after group literal = none ∧
      (∀ front c back, literal = front ++ c :: back → after group front = none →
        endsLiteral c = false) ∧
      StopsBefore (fun c => !endsLiteral c) rest := by
  induction text generalizing group literal with
  | nil =>
    cases group with
    | none =>
      obtain ⟨rfl, rfl⟩ := Prod.mk.inj (Except.ok.inj h)
      exact ⟨rfl, by simp, stopsBefore_nil⟩
    | some g => exact absurd h (by simp [splitLiteral])
  | cons c text ih =>
    by_cases hstop : (group.isNone && endsLiteral c) = true
    · obtain ⟨rfl, hc, hsplit⟩ := splitLiteral_ends hstop text
      rw [hsplit] at h
      obtain ⟨rfl, rfl⟩ := Prod.mk.inj (Except.ok.inj h)
      exact ⟨rfl, by simp, stopsBefore_cons (by simp [hc])⟩
    · rw [Bool.not_eq_true] at hstop
      obtain ⟨next, hsplit, hnext, -⟩ := splitLiteral_step hstop text
      rw [hsplit] at h
      cases hmore : splitLiteral next text with
      | error start => exact absurd h (by simp [hmore, Except.map])
      | ok split =>
        obtain ⟨more, rest'⟩ := split
        rw [hmore] at h
        obtain ⟨rfl, rfl⟩ := Prod.mk.inj (Except.ok.inj h)
        obtain ⟨hclosed, hruns, hrest⟩ := ih hmore
        refine ⟨(hnext more).mp hclosed, fun front d back heq hfront => ?_, hrest⟩
        cases front with
        | nil =>
          obtain ⟨rfl, -⟩ := List.cons.inj heq
          have hgroup : group = none := by
            cases group with
            | none => rfl
            | some g => exact absurd hfront (by simp [after])
          simpa [hgroup] using hstop
        | cons e front =>
          obtain ⟨rfl, hmore⟩ := List.cons.inj heq
          exact hruns front d back hmore ((hnext front).mpr hfront)

/-- A literal fails where the group begins that stays open.  It may be the one that is open
already. -/
theorem splitLiteral_error_stays (h : splitLiteral group text = .error start) :
    (∃ g ∈ group, g.start = start ∧ ∀ front, front <+: text → after group front ≠ none) ∨
      ∃ front, text = front ++ start ∧ after group front = none ∧ StaysOpen start := by
  induction text generalizing group with
  | nil =>
    cases group with
    | none => exact absurd h (by simp [splitLiteral])
    | some g =>
      refine Or.inl ⟨g, rfl, Except.error.inj h, fun front hfront => ?_⟩
      rw [List.prefix_nil.mp hfront]
      simp [after]
  | cons c text ih =>
    by_cases hstop : (group.isNone && endsLiteral c) = true
    · obtain ⟨-, -, hsplit⟩ := splitLiteral_ends hstop text
      rw [hsplit] at h
      exact absurd h (by simp)
    · rw [Bool.not_eq_true] at hstop
      obtain ⟨next, hsplit, hnext, hstart⟩ := splitLiteral_step hstop text
      rw [hsplit] at h
      have hmore : splitLiteral next text = .error start := by
        cases hmore : splitLiteral next text with
        | error start' =>
          rw [hmore] at h
          exact congrArg _ (Except.error.inj h)
        | ok split => exact absurd h (by simp [hmore, Except.map])
      rcases ih hmore with ⟨g, hg, rfl, hopen⟩ | ⟨front, rfl, hfront, hstays⟩
      · rcases hstart g hg with ⟨rfl, hbegins⟩ | ⟨g', hg', hsame⟩
        · refine Or.inr ⟨[], hbegins.symm, rfl, ?_⟩
          rw [hbegins, staysOpen_cons_iff]
          intro front hfront
          rw [outside_iff_after, ← hnext]
          exact hopen front hfront
        · refine Or.inl ⟨g', hg', hsame.symm, fun front hfront hnone => ?_⟩
          cases front with
          | nil => exact absurd hnone (by rw [Option.mem_def.mp hg']; simp [after])
          | cons d front =>
            obtain ⟨rfl, hmore⟩ := List.cons_prefix_cons.mp hfront
            exact hopen front hmore ((hnext front).mpr hnone)
      · exact Or.inr ⟨c :: front, rfl, (hnext front).mp hfront, hstays⟩

/-! ## Tilings -/

/-- Whether a token is a literal between two parts of a text.  It ends where the text ends, or
before the first character outside of groups that ends a literal. -/
structure IsLiteralBetween (token : Token) (front back : List Char) : Prop where
  kind : token.kind = literalKind token.chars
  nonempty : token.chars ≠ []
  runs : ∀ before c after, token.chars = before ++ c :: after → Outside (front ++ before) →
    endsLiteral c = false
  outside : Outside (front ++ token.chars)
  stops : StopsBefore (fun c => !endsLiteral c) back

/-- Whether a token stands between two parts of a text, outside of groups: as an operator or a
parenthesis, or as a literal. -/
structure StandsBetween (token : Token) (front back : List Char) : Prop where
  offset : token.offset = utf8Size front
  outside : Outside front
  kind : (∃ c, token.chars = [c] ∧ operatorKind? c = some token.kind) ∨
    token.IsLiteralBetween front back

/-- How tokens follow each other in the rest of a text of which `front` has been scanned. -/
inductive Tiling : List Char → List Token → List Char → Prop
  | nil {front : List Char} : Tiling front [] []
  | blank {front rest : List Char} {c : Char} {tokens : List Token} (hc : isBlank c = true)
      (hrest : Tiling (front ++ [c]) tokens rest) : Tiling front tokens (c :: rest)
  | token {front rest : List Char} {token : Token} {tokens : List Token}
      (htoken : token.StandsBetween front rest)
      (hrest : Tiling (front ++ token.chars) tokens rest) :
      Tiling front (token :: tokens) (token.chars ++ rest)

theorem StandsBetween.utf8Size_pos (h : token.StandsBetween front back) :
    0 < utf8Size token.chars := by
  have hne : token.chars ≠ [] := by
    rcases h.kind with ⟨c, hchars, -⟩ | hliteral
    · simp [hchars]
    · exact hliteral.nonempty
  obtain ⟨c, more, hchars⟩ := List.exists_cons_of_ne_nil hne
  rw [hchars, utf8Size_cons]
  exact Nat.add_pos_left c.utf8Size_pos _

theorem opensGroup_of_endsLiteral (h : endsLiteral c = true) : opensGroup c = false :=
  ofText?_eq_none_iff.mp (ofText?_of_endsLiteral h)

/-- A blank or an operator outside of groups leaves no group open. -/
theorem outside_concat (hfront : Outside front) (hc : endsLiteral c = true) :
    Outside (front ++ [c]) :=
  (outside_append_iff hfront).mpr (.char (opensGroup_of_endsLiteral hc) .nil)

/-- A literal leaves no group open. -/
theorem outside_of_splitLiteral (hfront : Outside front)
    (h : splitLiteral none text = .ok (literal, rest)) : Outside (front ++ literal) := by
  rw [outside_append_iff hfront, outside_iff_after]
  exact (splitLiteral_ok_run h).1

/-- What is split off outside of groups is a literal. -/
theorem standsBetween_literal (hfront : Outside front) (hc : endsLiteral c = false)
    (h : splitLiteral none (c :: text) = .ok (literal, rest)) :
    StandsBetween ⟨if c = '%' then .reference else .pattern, literal, utf8Size front⟩ front
      rest := by
  obtain ⟨-, hruns, hstops⟩ := splitLiteral_ok_run h
  have hne := ne_nil_of_splitLiteral hc h
  have hhead : literal.head? = some c := by
    have happend := append_of_splitLiteral h
    obtain ⟨d, more, rfl⟩ := List.exists_cons_of_ne_nil hne
    obtain ⟨rfl, -⟩ := List.cons.inj happend
    rfl
  refine ⟨rfl, hfront, Or.inr ⟨?_, hne, fun before d after heq hbefore => ?_,
    outside_of_splitLiteral hfront h, hstops⟩⟩
  · simp [literalKind, hhead]
  · rw [outside_append_iff hfront, outside_iff_after] at hbefore
    exact hruns before d after heq hbefore

/-- Scanning outside of groups tiles what is left of the text. -/
theorem tiling_of_scanFrom (hlimit : rest.length ≤ limit) (hfront : Outside front)
    (h : scanFrom limit (utf8Size front) rest = .ok tokens) : Tiling front tokens rest := by
  induction limit generalizing front rest tokens with
  | zero =>
    obtain rfl := List.length_eq_zero_iff.mp (Nat.le_zero.mp hlimit)
    obtain rfl := Except.ok.inj h
    exact .nil
  | succ limit ih =>
    cases rest with
    | nil =>
      obtain rfl := Except.ok.inj h
      exact .nil
    | cons c rest =>
      have hlimit' : rest.length ≤ limit := Nat.le_of_succ_le_succ hlimit
      have hoffset : utf8Size front + c.utf8Size = utf8Size (front ++ [c]) := by simp
      rw [scanFrom] at h
      split at h
      · next hblank =>
        rw [hoffset] at h
        exact .blank hblank (ih hlimit' (outside_concat hfront (by simp [endsLiteral, hblank])) h)
      next hblank =>
      split at h
      · next kind hkind =>
        have hc : endsLiteral c = true := by simp [endsLiteral, hkind]
        obtain ⟨others, hothers, hresult⟩ := bind_eq_ok.mp h
        obtain rfl := Except.ok.inj hresult
        rw [hoffset] at hothers
        have htoken : StandsBetween ⟨kind, [c], utf8Size front⟩ front rest :=
          ⟨rfl, hfront, Or.inl ⟨c, rfl, hkind⟩⟩
        exact .token htoken (ih hlimit' (outside_concat hfront hc) hothers)
      · next hkind =>
        have hc : endsLiteral c = false := by simp [endsLiteral, hblank, hkind]
        obtain ⟨⟨literal, more⟩, hliteral, h⟩ := bind_eq_ok.mp h
        obtain ⟨others, hothers, hresult⟩ := bind_eq_ok.mp h
        obtain rfl := Except.ok.inj hresult
        rw [← utf8Size_append] at hothers
        have hshorter := length_of_splitLiteral hc hliteral
        have hclosed := outside_of_splitLiteral hfront hliteral
        rw [← append_of_splitLiteral hliteral]
        exact .token (standsBetween_literal hfront hc hliteral)
          (ih (Nat.le_trans hshorter hlimit') hclosed hothers)

/-- Scanning only fails where the group begins that is left open. -/
theorem leavesOpen_scanFrom (limit offset : Nat) (rest : List Char) :
    FailsOnly (LeavesOpen rest) (scanFrom limit offset rest) := by
  induction limit generalizing offset rest with
  | zero => cases rest <;> exact .ok
  | succ limit ih =>
    cases rest with
    | nil => exact .ok
    | cons c rest =>
      have hlater : ∀ offset, endsLiteral c = true →
          FailsOnly (LeavesOpen (c :: rest)) (scanFrom limit offset rest) := fun offset hc =>
        (ih offset rest).mono fun _ hstart => hstart.append_left (outside_concat .nil hc)
      rw [scanFrom]
      split
      · next hblank => exact hlater _ (by simp [endsLiteral, hblank])
      next hblank =>
      split
      · next kind hkind => exact (hlater _ (by simp [endsLiteral, hkind])).bind fun _ _ => .ok
      · have hsplit : FailsOnly (LeavesOpen (c :: rest)) (splitLiteral none (c :: rest)) := by
          refine ⟨fun start hstart => ?_⟩
          rcases splitLiteral_error_stays hstart with ⟨g, hg, -⟩ | ⟨front, heq, hfront, hstays⟩
          · exact absurd hg (by simp)
          · exact ⟨front, heq, outside_iff_after.mpr hfront, hstays⟩
        refine hsplit.bind ?_
        rintro ⟨literal, more⟩ hliteral
        have hclosed : Outside ([] ++ literal) := outside_of_splitLiteral .nil hliteral
        rw [← append_of_splitLiteral hliteral]
        exact ((ih _ more).mono fun _ hstart => hstart.append_left hclosed).bind fun _ _ => .ok

namespace Tiling

/-- No group is open at the end of a text that is tiled. -/
theorem outside (h : Tiling front tokens rest) (hfront : Outside front) :
    Outside (front ++ rest) := by
  induction h with
  | nil => rwa [List.append_nil]
  | @blank front rest c tokens hc _ ih =>
    have hclosed := ih (outside_concat hfront (by simp [endsLiteral, hc]))
    rwa [List.append_assoc, List.singleton_append] at hclosed
  | token htoken _ ih =>
    rw [← List.append_assoc]
    refine ih ?_
    rcases htoken.kind with ⟨c, hchars, hkind⟩ | hliteral
    · rw [hchars]
      exact outside_concat hfront (by simp [endsLiteral, hkind])
    · exact hliteral.outside

/-- Every token stands between what is before it and what is behind it. -/
theorem stands (h : Tiling front tokens rest) :
    ∀ token ∈ tokens, ∃ before after, front ++ rest = before ++ (token.chars ++ after) ∧
      token.StandsBetween before after := by
  induction h with
  | nil => exact nofun
  | blank _ _ ih =>
    rw [List.append_assoc, List.singleton_append] at ih
    exact ih
  | @token front rest token tokens htoken _ ih =>
    rw [List.append_assoc] at ih
    exact List.forall_mem_cons.mpr ⟨⟨front, rest, rfl, htoken⟩, ih⟩

theorem le_offset (h : Tiling front tokens rest) :
    ∀ token ∈ tokens, utf8Size front ≤ token.offset := by
  induction h with
  | nil => exact nofun
  | blank _ _ ih =>
    rw [utf8Size_append] at ih
    exact fun token htoken => Nat.le_trans (Nat.le_add_right _ _) (ih token htoken)
  | token hstands _ ih =>
    rw [utf8Size_append] at ih
    refine List.forall_mem_cons.mpr ⟨hstands.offset.ge, fun token htoken => ?_⟩
    exact Nat.le_trans (Nat.le_add_right _ _) (ih token htoken)

/-- Tokens are in the order of the text and do not overlap. -/
theorem ordered (h : Tiling front tokens rest) :
    tokens.Pairwise fun token other =>
      token.offset < other.offset ∧ token.offset + utf8Size token.chars ≤ other.offset := by
  induction h with
  | nil => exact .nil
  | blank _ _ ih => exact ih
  | token htoken hrest ih =>
    refine List.pairwise_cons.mpr ⟨fun other hother => ?_, ih⟩
    have hnext := hrest.le_offset other hother
    have hpos := htoken.utf8Size_pos
    rw [utf8Size_append, ← htoken.offset] at hnext
    omega

/-- Only blanks are left out. -/
theorem covered (h : Tiling front tokens rest) {before after : List Char}
    (heq : rest = before ++ c :: after) :
    isBlank c = true ∨ ∃ token ∈ tokens, token.offset ≤ utf8Size (front ++ before) ∧
      utf8Size (front ++ before) < token.offset + utf8Size token.chars := by
  induction h generalizing before with
  | nil => exact absurd heq (by simp)
  | @blank front rest d tokens hd _ ih =>
    cases before with
    | nil =>
      obtain ⟨rfl, -⟩ := List.cons.inj heq
      exact Or.inl hd
    | cons e before =>
      obtain ⟨rfl, hrest⟩ := List.cons.inj heq
      have hcovered := ih hrest
      rwa [List.append_assoc, List.singleton_append] at hcovered
  | @token front rest token tokens htoken _ ih =>
    have hlater : ∀ more, before = token.chars ++ more → rest = more ++ c :: after →
        isBlank c = true ∨ ∃ t ∈ token :: tokens, t.offset ≤ utf8Size (front ++ before) ∧
          utf8Size (front ++ before) < t.offset + utf8Size t.chars := by
      rintro more rfl hrest
      rw [← List.append_assoc]
      rcases ih hrest with hblank | ⟨t, ht, hcovers⟩
      · exact Or.inl hblank
      · exact Or.inr ⟨t, List.mem_cons_of_mem _ ht, hcovers⟩
    rcases List.append_eq_append_iff.mp heq with ⟨more, hbefore, hrest⟩ | ⟨more, hchars, hmore⟩
    · exact hlater more hbefore hrest
    · cases more with
      | nil => exact hlater [] (by rw [hchars]; simp) hmore.symm
      | cons d more =>
        -- The character is one of those of the token.
        refine Or.inr ⟨token, List.mem_cons_self, ?_, ?_⟩
        · rw [htoken.offset, utf8Size_append]
          exact Nat.le_add_right _ _
        · have hpos := d.utf8Size_pos
          rw [htoken.offset, hchars, utf8Size_append, utf8Size_append, utf8Size_cons]
          omega

end Tiling

/-! ## Lossless scanning -/

/-- The bytes of a text at a token's offset are those of the token. -/
theorem StandsBetween.extract_eq (h : token.StandsBetween front back) {text : String}
    (htext : text.toList = front ++ (token.chars ++ back)) :
    text.toUTF8.extract token.offset (token.offset + utf8Size token.chars) =
      (String.ofList token.chars).toUTF8 := by
  have hbytes : text.toUTF8 = (String.ofList front).toUTF8 ++
      ((String.ofList token.chars).toUTF8 ++ (String.ofList back).toUTF8) := by
    rw [← String.ofList_toList (s := text), htext, String.ofList_append, String.ofList_append]
    simp only [String.toUTF8, String.toByteArray_append]
  have hsize : ∀ part : List Char, utf8Size part = (String.ofList part).toUTF8.size := utf8Size_eq
  have hskip := ByteArray.extract_append_size_add (a := (String.ofList front).toUTF8)
    (b := (String.ofList token.chars).toUTF8 ++ (String.ofList back).toUTF8) (i := 0)
    (j := (String.ofList token.chars).toUTF8.size)
  rw [Nat.add_zero] at hskip
  rw [hbytes, h.offset, hsize, hsize, hskip]
  exact ByteArray.extract_append_eq_left rfl

/-- What the tokens of a text have to do with it: they are in its order and do not overlap, each
stands between two parts of it with the bytes that it has there, and only blanks are left out. -/
structure Covers (tokens : List Token) (text : String) : Prop where
  ordered : tokens.Pairwise fun token other =>
    token.offset < other.offset ∧ token.offset + utf8Size token.chars ≤ other.offset
  stands : ∀ token ∈ tokens, ∃ front back, text.toList = front ++ (token.chars ++ back) ∧
    token.StandsBetween front back
  bytes : ∀ token ∈ tokens,
    text.toUTF8.extract token.offset (token.offset + utf8Size token.chars) =
      (String.ofList token.chars).toUTF8
  covered : ∀ front c back, text.toList = front ++ c :: back →
    isBlank c = true ∨ ∃ token ∈ tokens, token.offset ≤ utf8Size front ∧
      utf8Size front < token.offset + utf8Size token.chars

theorem Tiling.covers {text : String} (h : Tiling [] tokens text.toList) : Covers tokens text where
  ordered := h.ordered
  stands := h.stands
  bytes token htoken := by
    obtain ⟨front, back, htext, hstands⟩ := h.stands token htoken
    exact hstands.extract_eq htext
  covered _ _ _ htext := h.covered htext

theorem tiling_of_scan (h : scan text = .ok tokens) : Tiling [] tokens text :=
  tiling_of_scanFrom (Nat.le_refl _) .nil h

/-- Scanning fails if and only if a group is left open, and then where it begins. -/
theorem scan_eq_error_iff : scan text = .error start ↔ LeavesOpen text start := by
  have hstays := (leavesOpen_scanFrom text.length 0 text).kind_of_error
  constructor
  · exact hstays start
  · intro h
    cases hscan : scan text with
    | error other => rw [(hstays other hscan).unique h]
    | ok tokens =>
      have houtside : Outside ([] ++ text) := (tiling_of_scan hscan).outside .nil
      exact absurd houtside h.not_outside

/-- Where scanning fails, the error is at the opening character of the group. -/
theorem parse_of_leavesOpen {text : String} (htext : text.toList = front ++ c :: back)
    (hfront : Outside front) (hstays : StaysOpen (c :: back)) :
    Expression.parse text = .error ⟨utf8Size front, .unterminated c, text⟩ := by
  have hscan : scan text.toList = .error (c :: back) :=
    scan_eq_error_iff.mpr ⟨front, htext, hfront, hstays⟩
  have hoffset : utf8Size text.toList - utf8Size (c :: back) = utf8Size front := by
    rw [htext, utf8Size_append, Nat.add_sub_cancel]
  rw [Expression.parse, hscan]
  dsimp only
  rw [hoffset, List.headD_cons]

/-- A text has no tokens if and only if one of its groups is left open at its end, and then the
error is at the character that opens it.  Otherwise nothing of the text but blanks is missing from
its tokens, which are the operators and literals that stand in it. -/
theorem scan_lossless (text : String) :
    ((∃ start, scan text.toList = .error start) ↔ ¬Outside text.toList) ∧
      (∀ start, scan text.toList = .error start ↔ LeavesOpen text.toList start) ∧
      (∀ front c back, text.toList = front ++ c :: back → Outside front → StaysOpen (c :: back) →
        Expression.parse text = .error ⟨utf8Size front, .unterminated c, text⟩) ∧
      ∀ tokens, scan text.toList = .ok tokens → Covers tokens text := by
  refine ⟨⟨?_, fun hopen => ?_⟩, fun start => scan_eq_error_iff,
    fun front c back => parse_of_leavesOpen, fun tokens h => (tiling_of_scan h).covers⟩
  · rintro ⟨start, hstart⟩
    exact (scan_eq_error_iff.mp hstart).not_outside
  · cases hscan : scan text.toList with
    | error start => exact ⟨start, rfl⟩
    | ok tokens =>
      have houtside : Outside ([] ++ text.toList) := (tiling_of_scan hscan).outside .nil
      exact absurd houtside hopen

/-- Neither the brace nor the quote that are quoted end their group, the brace in brackets opens
none, and what would be an operator elsewhere stands in them.  Without the last quote the brace is
left open: it stands at byte 3, because `é` has two. -/
theorem scan_lossless_of_quotes :
    let text := "é\x7bf(\"\x7d \\\" -\")\x7d-~[a \x7b]"
    let tokens : List Token :=
      [⟨.pattern, "é\x7bf(\"\x7d \\\" -\")\x7d".toList, 0⟩, ⟨.difference, ['-'], 15⟩,
        ⟨.complement, ['~'], 16⟩, ⟨.pattern, "[a \x7b]".toList, 17⟩]
    let unfinished := "é \x7b\"\x7d\\\"]"
    (scan text.toList = .ok tokens ∧ Outside text.toList ∧ Covers tokens text) ∧
      (¬Outside unfinished.toList ∧ StaysOpen "\x7b\"\x7d\\\"]".toList ∧
        Expression.parse unfinished = .error ⟨3, .unterminated '{', unfinished⟩) := by
  intro text tokens unfinished
  have htext : scan text.toList = .ok tokens := by decide +kernel
  have hunfinished : scan unfinished.toList = .error "\x7b\"\x7d\\\"]".toList := by decide +kernel
  obtain ⟨hfails, -, -, hcovers⟩ := scan_lossless text
  obtain ⟨hfails', hopen, hparse, -⟩ := scan_lossless unfinished
  have houtside : Outside text.toList := by
    by_contra hnot
    obtain ⟨start, hstart⟩ := hfails.mpr hnot
    rw [htext] at hstart
    exact absurd hstart (by simp)
  obtain ⟨-, -, -, hstays⟩ := (hopen _).mp hunfinished
  refine ⟨⟨htext, houtside, hcovers tokens htext⟩, hfails'.mp ⟨_, hunfinished⟩, hstays, ?_⟩
  have hfront : Outside ['é', ' '] := .char (by decide) (.char (by decide) .nil)
  exact hparse ['é', ' '] '{' _ (by decide +kernel) hfront hstays

end Token

end PathSets
