import Mathlib.Logic.Relation
import PathSets.Proofs.ExpressionGrammar
import PathSets.Proofs.SyntaxErrors

/-!
# Blanks between tokens

Blanks count for nothing in an expression but where they keep two literals apart.  More or
fewer of them at the ends of a text, beside an operator or a parenthesis, or instead of others
between two tokens, are no change to its tokens and so none to the expression that it spells
(`Expression.parse_respaced`), as long as no group is open there (`OpenGroup.after`).

A text can be cut at any place outside groups where a literal would end: its tokens are those
of the two parts (`Token.lexemes?_append`).  Then the blanks at the cut fall away.
-/

namespace PathSets

/-! ## Open groups -/

namespace OpenGroup

/-- The group that is open after a text, given the one that is open before it. -/
def after : Option OpenGroup → List Char → Option OpenGroup
  | group, [] => group
  | none, c :: text => after (ofText? [c]) text
  | some g, c :: text => after (g.step c) text

/-- The same group, but said to begin elsewhere. -/
def startAt (start : List Char) : OpenGroup → OpenGroup
  | bracket _ => bracket start
  | brace _ => brace start
  | quote _ => quote start
  | escape _ => escape start

variable {front text : List Char} {c : Char}

/-- How a group goes on does not depend on where it begins. -/
theorem step_startAt (start : List Char) (c : Char) (g : OpenGroup) :
    (g.startAt start).step c = (g.step c).map (startAt start) := by
  cases g with
  | bracket s =>
    simp only [startAt, step]
    split <;> rfl
  | brace s =>
    simp only [startAt, step]
    split
    · rfl
    · split <;> rfl
  | quote s =>
    simp only [startAt, step]
    split
    · rfl
    · split <;> rfl
  | escape s => rfl

theorem ofText?_cons (c : Char) (text : List Char) :
    ofText? (c :: text) = (ofText? [c]).map (startAt (c :: text)) := by
  by_cases hbracket : c = '['
  · subst hbracket
    rfl
  by_cases hbrace : c = '{'
  · subst hbrace
    rfl
  · simp [ofText?, hbracket, hbrace]

/-- A character that ends a literal opens no group. -/
theorem ofText?_of_endsLiteral (h : endsLiteral c = true) : ofText? [c] = none := by
  have hbracket : c ≠ '[' := by
    rintro rfl
    exact absurd h (by decide)
  have hbrace : c ≠ '{' := by
    rintro rfl
    exact absurd h (by decide)
  simp [ofText?, hbracket, hbrace]

theorem after_cons_of_endsLiteral (h : endsLiteral c = true) (text : List Char) :
    after none (c :: text) = after none text := by
  rw [after, ofText?_of_endsLiteral h]

end OpenGroup

/-- Whether a text is made of blanks only. -/
def AllBlank (text : List Char) : Prop :=
  ∀ c ∈ text, isBlank c = true

instance (text : List Char) : Decidable (AllBlank text) :=
  decidable_of_iff (text.all isBlank = true) List.all_eq_true

namespace Token

variable {front text rest blanks blanks' back literal tail : List Char} {c : Char}
  {kind : TokenKind} {limit offset : Nat}

/-! ## Literals at a cut -/

/-- Where no group is open and a literal would end, a text can be cut before its first
literal is split off. -/
theorem exists_splitLiteral {group : Option OpenGroup} (h : OpenGroup.after group front = none) :
    ∃ literal tail, front = literal ++ tail ∧ OpenGroup.after none tail = none ∧
      ∀ start rest, StopsBefore (fun c => !endsLiteral c) rest →
        splitLiteral (group.map (·.startAt start)) (front ++ rest) =
          .ok (literal, tail ++ rest) := by
  induction front generalizing group with
  | nil =>
    obtain rfl : group = none := h
    exact ⟨[], [], rfl, rfl, fun _ rest hrest => splitLiteral_stop hrest⟩
  | cons c front ih =>
    by_cases hstop : (group.isNone && endsLiteral c) = true
    · rw [Bool.and_eq_true, Option.isNone_iff_eq_none] at hstop
      obtain ⟨rfl, hc⟩ := hstop
      exact ⟨[], c :: front, rfl, h, fun _ rest _ =>
        splitLiteral_stop (stopsBefore_cons (by simp [hc]))⟩
    · cases group with
      | none =>
        obtain ⟨literal, tail, rfl, htail, hsplit⟩ := ih h
        refine ⟨c :: literal, tail, rfl, htail, fun start rest hrest => ?_⟩
        rw [Option.map_none, List.cons_append, splitLiteral_cons (by simpa using hstop)]
        dsimp only
        rw [OpenGroup.ofText?_cons, hsplit _ rest hrest]
        rfl
      | some g =>
        obtain ⟨literal, tail, rfl, htail, hsplit⟩ := ih h
        refine ⟨c :: literal, tail, rfl, htail, fun start rest hrest => ?_⟩
        rw [Option.map_some, List.cons_append, splitLiteral_open, OpenGroup.step_startAt,
          hsplit start rest hrest]
        rfl

theorem ne_nil_of_splitLiteral (hc : endsLiteral c = false)
    (h : splitLiteral none (c :: text) = .ok (literal, rest)) : literal ≠ [] := by
  rw [splitLiteral_cons (by simp [hc])] at h
  generalize splitLiteral _ text = split at h
  cases split with
  | error start => exact absurd h (by simp [Except.map])
  | ok split =>
    obtain rfl : [c] ++ split.1 = literal := congrArg Prod.fst (Except.ok.inj h)
    simp

/-- What ends a literal is a blank or an operator. -/
theorem exists_operatorKind? (hc : endsLiteral c = true) (hblank : isBlank c = false) :
    ∃ kind, operatorKind? c = some kind := by
  simpa [endsLiteral, hblank, Option.isSome_iff_exists] using hc

/-! ## Tokens without places -/

/-- The tokens of a text that begins at byte `offset`, without their places; none if a group
stays open. -/
def lexemesFrom? (limit offset : Nat) (text : List Char) : Option (List Lexeme) :=
  (scanFrom limit offset text).toOption.map (·.map lexeme)

/-- The tokens of a text, without their places; none if a group stays open. -/
def lexemes? (text : List Char) : Option (List Lexeme) :=
  lexemesFrom? text.length 0 text

theorem lexemesFrom?_nil (limit offset : Nat) : lexemesFrom? limit offset [] = some [] := by
  cases limit <;> rfl

theorem lexemesFrom?_blank (hc : isBlank c = true) :
    lexemesFrom? (limit + 1) offset (c :: text) =
      lexemesFrom? limit (offset + c.utf8Size) text := by
  rw [lexemesFrom?, scanFrom, if_pos hc]
  rfl

theorem lexemesFrom?_operator (hblank : isBlank c = false) (hc : operatorKind? c = some kind) :
    lexemesFrom? (limit + 1) offset (c :: text) =
      (lexemesFrom? limit (offset + c.utf8Size) text).map ((kind, [c]) :: ·) := by
  rw [lexemesFrom?, lexemesFrom?, scanFrom, if_neg (by simp [hblank]), hc]
  dsimp only
  cases scanFrom limit (offset + c.utf8Size) text <;> rfl

/-- The kind of token that a literal makes which begins with this character. -/
def kindOfFirst (c : Char) : TokenKind :=
  if c = '%' then .reference else .pattern

theorem lexemesFrom?_literal (hc : endsLiteral c = false) :
    lexemesFrom? (limit + 1) offset (c :: text) =
      (splitLiteral none (c :: text)).toOption.bind fun split =>
        (lexemesFrom? limit (offset + utf8Size split.1) split.2).map
          ((kindOfFirst c, split.1) :: ·) := by
  have hc' : isBlank c = false ∧ operatorKind? c = none := by simpa [endsLiteral] using hc
  rw [lexemesFrom?, scanFrom, if_neg (by simp [hc'.1]), hc'.2]
  dsimp only
  cases splitLiteral none (c :: text) with
  | error start => rfl
  | ok split =>
    obtain ⟨literal, rest⟩ := split
    show _ = (lexemesFrom? limit (offset + utf8Size literal) rest).map _
    rw [ok_bind, lexemesFrom?]
    dsimp only
    cases scanFrom limit (offset + utf8Size literal) rest <;> rfl

/-- What is left behind a literal is shorter than the text. -/
theorem length_of_splitLiteral (hc : endsLiteral c = false)
    (h : splitLiteral none (c :: text) = .ok (literal, rest)) : rest.length ≤ text.length := by
  have hlength : literal.length + rest.length = text.length + 1 := by
    rw [← List.length_append, append_of_splitLiteral h, List.length_cons]
  have hpos : 0 < literal.length := List.length_pos_iff.mpr (ne_nil_of_splitLiteral hc h)
  omega

/-- The tokens of a text do not depend on its place, nor on the limit. -/
theorem lexemesFrom?_congr (h : text.length ≤ limit) {limit' : Nat} (h' : text.length ≤ limit')
    (offset offset' : Nat) :
    lexemesFrom? limit offset text = lexemesFrom? limit' offset' text := by
  induction limit generalizing text limit' offset offset' with
  | zero =>
    obtain rfl := List.length_eq_zero_iff.mp (Nat.le_zero.mp h)
    rw [lexemesFrom?_nil, lexemesFrom?_nil]
  | succ limit ih =>
    cases text with
    | nil => rw [lexemesFrom?_nil, lexemesFrom?_nil]
    | cons c text =>
      obtain ⟨limit', rfl⟩ := Nat.exists_eq_add_of_le' (Nat.le_trans (by simp) h' : 1 ≤ limit')
      have hlimit : text.length ≤ limit := Nat.le_of_succ_le_succ h
      have hlimit' : text.length ≤ limit' := Nat.le_of_succ_le_succ h'
      cases hc : endsLiteral c with
      | true =>
        cases hblank : isBlank c with
        | true =>
          rw [lexemesFrom?_blank hblank, lexemesFrom?_blank hblank]
          exact ih hlimit hlimit' _ _
        | false =>
          obtain ⟨kind, hkind⟩ := exists_operatorKind? hc hblank
          rw [lexemesFrom?_operator hblank hkind, lexemesFrom?_operator hblank hkind,
            ih hlimit hlimit']
      | false =>
        rw [lexemesFrom?_literal hc, lexemesFrom?_literal hc]
        cases hsplit : splitLiteral none (c :: text) with
        | error start => rfl
        | ok split =>
          have hrest := length_of_splitLiteral hc hsplit
          exact congrArg (Option.map _)
            (ih (Nat.le_trans hrest hlimit) (Nat.le_trans hrest hlimit') _ _)

theorem lexemes?_nil : lexemes? [] = some [] :=
  lexemesFrom?_nil 0 0

theorem lexemes?_blank (hc : isBlank c = true) (text : List Char) :
    lexemes? (c :: text) = lexemes? text :=
  (lexemesFrom?_blank hc).trans
    (lexemesFrom?_congr (Nat.le_refl _) (Nat.le_refl _) _ _)

theorem lexemes?_operator (hblank : isBlank c = false) (hc : operatorKind? c = some kind)
    (text : List Char) : lexemes? (c :: text) = (lexemes? text).map ((kind, [c]) :: ·) :=
  (lexemesFrom?_operator hblank hc).trans
    (congrArg _ (lexemesFrom?_congr (Nat.le_refl _) (Nat.le_refl _) _ _))

theorem lexemes?_literal (hc : endsLiteral c = false)
    (h : splitLiteral none (c :: text) = .ok (literal, rest)) :
    lexemes? (c :: text) = (lexemes? rest).map ((kindOfFirst c, literal) :: ·) := by
  rw [lexemes?, List.length_cons, lexemesFrom?_literal hc, h]
  exact congrArg (Option.map _)
    (lexemesFrom?_congr (length_of_splitLiteral hc h) (Nat.le_refl _) _ _)

/-! ## Cutting a text -/

/-- A text is cut where no group is open and what follows would end a literal: its tokens are
those of both parts. -/
theorem lexemes?_append (h : OpenGroup.after none front = none)
    (hrest : StopsBefore (fun c => !endsLiteral c) rest) :
    lexemes? (front ++ rest) =
      (lexemes? front).bind fun lexemes => (lexemes? rest).map (lexemes ++ ·) := by
  induction hlength : front.length using Nat.strong_induction_on generalizing front with
  | _ length ih =>
  subst hlength
  cases front with
  | nil =>
    rw [lexemes?_nil, List.nil_append]
    cases lexemes? rest <;> rfl
  | cons c front =>
    cases hc : endsLiteral c with
    | true =>
      have hfront : OpenGroup.after none front = none :=
        (OpenGroup.after_cons_of_endsLiteral hc front).symm.trans h
      have hcut := ih front.length (Nat.lt_succ_self _) hfront rfl
      cases hblank : isBlank c with
      | true => rw [List.cons_append, lexemes?_blank hblank, lexemes?_blank hblank, hcut]
      | false =>
        obtain ⟨kind, hkind⟩ := exists_operatorKind? hc hblank
        rw [List.cons_append, lexemes?_operator hblank hkind, lexemes?_operator hblank hkind, hcut]
        cases lexemes? front <;> cases lexemes? rest <;> rfl
    | false =>
      obtain ⟨literal, tail, heq, htail, hsplit⟩ := exists_splitLiteral h
      have hwhole : splitLiteral none (c :: (front ++ rest)) = .ok (literal, tail ++ rest) := by
        have hsplit' := hsplit [] rest hrest
        rwa [Option.map_none, List.cons_append] at hsplit'
      have hpart : splitLiteral none (c :: front) = .ok (literal, tail) := by
        have hsplit' := hsplit [] [] stopsBefore_nil
        rwa [Option.map_none, List.append_nil, List.append_nil] at hsplit'
      have hshorter : tail.length < (c :: front).length :=
        Nat.lt_succ_of_le (length_of_splitLiteral hc hpart)
      rw [List.cons_append, lexemes?_literal hc hwhole, lexemes?_literal hc hpart,
        ih tail.length hshorter htail rfl]
      cases lexemes? tail <;> cases lexemes? rest <;> rfl

/-- Blanks at the front add no tokens. -/
theorem lexemes?_blanks (hblanks : AllBlank blanks) (text : List Char) :
    lexemes? (blanks ++ text) = lexemes? text := by
  induction blanks with
  | nil => rfl
  | cons c blanks ih =>
    rw [List.cons_append, lexemes?_blank (hblanks c (by simp)),
      ih fun d hd => hblanks d (List.mem_cons_of_mem c hd)]

/-- Blanks between two parts of a text add no tokens, where the first part ends outside groups
and no literal goes on behind it. -/
theorem lexemes?_between (h : OpenGroup.after none front = none) (hblanks : AllBlank blanks)
    (hback : blanks = [] → StopsBefore (fun c => !endsLiteral c) back) :
    lexemes? (front ++ (blanks ++ back)) =
      (lexemes? front).bind fun lexemes => (lexemes? back).map (lexemes ++ ·) := by
  have hrest : StopsBefore (fun c => !endsLiteral c) (blanks ++ back) := by
    cases blanks with
    | nil => exact hback rfl
    | cons c blanks => exact stopsBefore_cons (by simp [endsLiteral, hblanks c (by simp)])
  rw [lexemes?_append h hrest, lexemes?_blanks hblanks]

/-- Blanks behind an operator add no tokens. -/
theorem lexemes?_behind (hc : (operatorKind? c).isSome = true) (hblanks : AllBlank blanks)
    (text : List Char) : lexemes? (c :: (blanks ++ text)) = lexemes? (c :: text) := by
  obtain ⟨kind, hkind⟩ := Option.isSome_iff_exists.mp hc
  cases hblank : isBlank c with
  | true => rw [lexemes?_blank hblank, lexemes?_blank hblank, lexemes?_blanks hblanks]
  | false =>
    rw [lexemes?_operator hblank hkind, lexemes?_operator hblank hkind, lexemes?_blanks hblanks]

end Token

/-! ## Other blanks -/

/-- Whether two texts differ only in a run of blanks outside groups: at an end of them, beside
an operator or a parenthesis, or anywhere if both have one there. -/
inductive Respaced : List Char → List Char → Prop
  | atStart {blanks blanks' back : List Char} (h : AllBlank blanks) (h' : AllBlank blanks') :
      Respaced (blanks ++ back) (blanks' ++ back)
  | atEnd {front blanks blanks' : List Char} (houtside : OpenGroup.after none front = none)
      (h : AllBlank blanks) (h' : AllBlank blanks') :
      Respaced (front ++ blanks) (front ++ blanks')
  | beforeOperator {front blanks blanks' back : List Char} {c : Char}
      (houtside : OpenGroup.after none front = none) (hc : (operatorKind? c).isSome = true)
      (h : AllBlank blanks) (h' : AllBlank blanks') :
      Respaced (front ++ (blanks ++ c :: back)) (front ++ (blanks' ++ c :: back))
  | afterOperator {front blanks blanks' back : List Char} {c : Char}
      (houtside : OpenGroup.after none front = none) (hc : (operatorKind? c).isSome = true)
      (h : AllBlank blanks) (h' : AllBlank blanks') :
      Respaced (front ++ c :: (blanks ++ back)) (front ++ c :: (blanks' ++ back))
  | between {front blanks blanks' back : List Char}
      (houtside : OpenGroup.after none front = none)
      (h : AllBlank blanks) (h' : AllBlank blanks') (hne : blanks ≠ []) (hne' : blanks' ≠ []) :
      Respaced (front ++ (blanks ++ back)) (front ++ (blanks' ++ back))

/-- Other blanks make no other tokens. -/
theorem Respaced.lexemes?_eq {text other : List Char} (h : Respaced text other) :
    Token.lexemes? text = Token.lexemes? other := by
  cases h with
  | atStart h h' => rw [Token.lexemes?_blanks h, Token.lexemes?_blanks h']
  | @atEnd front blanks blanks' houtside h h' =>
    rw [← List.append_nil blanks, ← List.append_nil blanks',
      Token.lexemes?_between houtside h fun _ => stopsBefore_nil,
      Token.lexemes?_between houtside h' fun _ => stopsBefore_nil]
  | @beforeOperator front blanks blanks' back c houtside hc h h' =>
    have hback : StopsBefore (fun c => !endsLiteral c) (c :: back) :=
      stopsBefore_cons (by simp [endsLiteral, hc])
    rw [Token.lexemes?_between houtside h fun _ => hback,
      Token.lexemes?_between houtside h' fun _ => hback]
  | @afterOperator front blanks blanks' back c houtside hc h h' =>
    have hstop : ∀ more, StopsBefore (fun c => !endsLiteral c) (c :: more) := fun _ =>
      stopsBefore_cons (by simp [endsLiteral, hc])
    rw [Token.lexemes?_append houtside (hstop _), Token.lexemes?_append houtside (hstop _),
      Token.lexemes?_behind hc h, Token.lexemes?_behind hc h']
  | between houtside h h' hne hne' =>
    rw [Token.lexemes?_between houtside h (absurd · hne),
      Token.lexemes?_between houtside h' (absurd · hne')]

theorem lexemes?_eq_of_respaced {text other : List Char}
    (h : Relation.ReflTransGen Respaced text other) :
    Token.lexemes? text = Token.lexemes? other := by
  induction h with
  | refl => rfl
  | tail _ hstep ih => exact ih.trans hstep.lexemes?_eq

/-! ## Reading other tokens -/

section Places

variable {token other : Token} {tokens others : List Token} {nonterminal : Nonterminal}
  {p : Phrase}

namespace Token

theorem kind_of_lexeme (h : token.lexeme = other.lexeme) : token.kind = other.kind :=
  (Prod.mk.inj h).1

theorem map_kind_of_lexemes (h : tokens.map lexeme = others.map lexeme) :
    tokens.map kind = others.map kind := by
  have hfst : tokens.map (Prod.fst ∘ lexeme) = others.map (Prod.fst ∘ lexeme) := by
    rw [← List.map_map, h, List.map_map]
  exact hfst

/-- Two texts with the same tokens are both scanned or both are not. -/
theorem exists_scan_of_lexemes? {text other : List Char} (hscan : scan text = .ok tokens)
    (h : lexemes? text = lexemes? other) :
    ∃ others, scan other = .ok others ∧ others.map lexeme = tokens.map lexeme := by
  have htext : lexemes? text = some (tokens.map lexeme) :=
    congrArg (fun scanned => scanned.toOption.map (·.map lexeme)) hscan
  obtain ⟨others, hothers, heq⟩ := Option.map_eq_some_iff.mp (h.symm.trans htext)
  exact ⟨others, toOption_eq_some_iff.mp hothers, heq⟩

end Token

/-- What a literal stands for does not depend on its place. -/
theorem Expression.readLeaf_of_lexeme (h : token.lexeme = other.lexeme) {l : Leaf}
    (hread : readLeaf token = .ok l) : readLeaf other = .ok l := by
  obtain ⟨hkind, hchars⟩ := Prod.mk.inj h
  rw [readLeaf] at hread ⊢
  rw [← hkind, ← hchars]
  split at hread
  · split at hread
    · exact hread
    · exact absurd hread (by simp)
  · split at hread
    · exact hread
    · exact absurd hread (by simp)

/-- What phrases tokens have does not depend on their places. -/
theorem Derives.of_lexemes (h : Derives nonterminal tokens p)
    (heq : others.map Token.lexeme = tokens.map Token.lexeme) :
    Derives nonterminal others p := by
  induction h generalizing others with
  | @leaf token l hkind hread =>
    obtain ⟨other, rfl, hother⟩ := List.map_eq_singleton_iff.mp heq
    refine .leaf ?_ (Expression.readLeaf_of_lexeme hother.symm hread)
    rwa [Token.kind_of_lexeme hother]
  | @parens opening closing inside p hopening hclosing _ ih =>
    rw [List.map_append, List.map_cons, List.map_singleton] at heq
    obtain ⟨most, last, rfl, hmost, hlast⟩ := List.map_eq_append_iff.mp heq
    obtain ⟨first, inside', rfl, hfirst, hinside⟩ := List.map_eq_cons_iff.mp hmost
    obtain ⟨closing', rfl, hclosing'⟩ := List.map_eq_singleton_iff.mp hlast
    refine .parens ?_ ?_ (ih hinside)
    · rwa [Token.kind_of_lexeme hfirst]
    · rwa [Token.kind_of_lexeme hclosing']
  | @signed signs tokens p hsigns _ ih =>
    rw [List.map_append] at heq
    obtain ⟨signs', tokens', rfl, hsigns', htokens⟩ := List.map_eq_append_iff.mp heq
    have hlength : signs'.length = signs.length := by
      simpa using congrArg List.length hsigns'
    rw [← hlength]
    refine .signed (fun sign' hsign' => ?_) (ih htokens)
    obtain ⟨sign, hsign, hlexeme⟩ : ∃ sign ∈ signs, sign.lexeme = sign'.lexeme :=
      List.mem_map.mp (hsigns' ▸ List.mem_map_of_mem hsign')
    rw [← Token.kind_of_lexeme hlexeme]
    exact hsigns sign hsign
  | first _ ih => exact .first (ih heq)
  | @link op left sign right p q _ hsign _ ihleft ihright =>
    rw [List.map_append, List.map_append] at heq
    obtain ⟨left', more, rfl, hleft, hmore⟩ := List.map_eq_append_iff.mp heq
    obtain ⟨sign', right', rfl, hsign', hright⟩ := List.map_eq_append_iff.mp hmore
    refine .link (ihleft hleft) ?_ (ihright hright)
    rw [← hsign, Token.map_kind_of_lexemes hsign']

/-- What tokens are read as does not depend on their places, nor does whether they are. -/
theorem Expression.readTokens_of_lexemes (heq : others.map Token.lexeme = tokens.map Token.lexeme)
    {e : Expression} (h : readTokens tokens = .ok e) : readTokens others = .ok e := by
  rw [readTokens_eq_ok_iff] at h ⊢
  rcases h with ⟨rfl, rfl⟩ | ⟨p, hp, hlimits⟩
  · exact Or.inl ⟨List.map_eq_nil_iff.mp heq, rfl⟩
  · exact Or.inr ⟨p, hp.of_lexemes heq, hlimits⟩

end Places

namespace Expression

variable {text other : String}

/-- What a text is read as is a matter of its tokens, wherever they stand. -/
theorem parse_of_lexemes (h : Token.lexemes? text.toList = Token.lexemes? other.toList)
    {e : Expression} (hparse : parse text = .ok e) : parse other = .ok e := by
  rw [parse] at hparse ⊢
  cases hscan : Token.scan text.toList with
  | error start =>
    rw [hscan] at hparse
    exact absurd hparse (by simp)
  | ok tokens =>
    rw [hscan] at hparse
    obtain ⟨others, hothers, heq⟩ := Token.exists_scan_of_lexemes? hscan h
    rw [hothers]
    dsimp only at hparse ⊢
    rw [mapError_eq_ok] at hparse ⊢
    exact readTokens_of_lexemes heq hparse

/-- Blanks outside groups that are put in, left out or replaced, however often, make no other
tokens, and the texts spell the same expression or both spell none. -/
theorem parse_respaced (h : Relation.ReflTransGen Respaced text.toList other.toList) :
    (Token.scan text.toList).toOption.map (·.map Token.lexeme) =
        (Token.scan other.toList).toOption.map (·.map Token.lexeme) ∧
      (parse text).toOption = (parse other).toOption := by
  have hlexemes := lexemes?_eq_of_respaced h
  refine ⟨hlexemes, Option.ext fun e => ?_⟩
  rw [toOption_eq_some_iff, toOption_eq_some_iff]
  exact ⟨parse_of_lexemes hlexemes, parse_of_lexemes hlexemes.symm⟩

/-- The blanks of an expression, apart from the one in quotes. -/
theorem parse_respaced_difference :
    Relation.ReflTransGen Respaced
        "/[-a]-~(/b\x7bf(\"\x7d \")\x7d  %:c)".toList
        "/[-a]-~(\u3000/b\x7bf(\"\x7d \")\x7d\u2003%:c)".toList ∧
      (Token.scan "/[-a]-~(/b\x7bf(\"\x7d \")\x7d  %:c)".toList).toOption.map
          (·.map Token.lexeme) =
        (Token.scan "/[-a]-~(\u3000/b\x7bf(\"\x7d \")\x7d\u2003%:c)".toList).toOption.map
          (·.map Token.lexeme) ∧
      (parse "/[-a]-~(/b\x7bf(\"\x7d \")\x7d  %:c)").toOption =
        (parse "/[-a]-~(\u3000/b\x7bf(\"\x7d \")\x7d\u2003%:c)").toOption ∧
      (parse "/[-a]-~(/b\x7bf(\"\x7d \")\x7d  %:c)").toOption.isSome := by
  have hparens : Respaced "/[-a]-~(/b\x7bf(\"\x7d \")\x7d  %:c)".toList
      "/[-a]-~(\u3000/b\x7bf(\"\x7d \")\x7d  %:c)".toList := by
    have htext : "/[-a]-~(/b\x7bf(\"\x7d \")\x7d  %:c)".toList =
        "/[-a]-~".toList ++ '(' :: ([] ++ "/b\x7bf(\"\x7d \")\x7d  %:c)".toList) := by
      decide +kernel
    have hother : "/[-a]-~(\u3000/b\x7bf(\"\x7d \")\x7d  %:c)".toList =
        "/[-a]-~".toList ++ '(' :: (['\u3000'] ++ "/b\x7bf(\"\x7d \")\x7d  %:c)".toList) := by
      decide +kernel
    rw [htext, hother]
    exact .afterOperator (by decide) (by decide) (by decide) (by decide)
  have hbetween : Respaced "/[-a]-~(\u3000/b\x7bf(\"\x7d \")\x7d  %:c)".toList
      "/[-a]-~(\u3000/b\x7bf(\"\x7d \")\x7d\u2003%:c)".toList := by
    have htext : "/[-a]-~(\u3000/b\x7bf(\"\x7d \")\x7d  %:c)".toList =
        "/[-a]-~(\u3000/b\x7bf(\"\x7d \")\x7d".toList ++ ([' ', ' '] ++ "%:c)".toList) := by
      decide +kernel
    have hother : "/[-a]-~(\u3000/b\x7bf(\"\x7d \")\x7d\u2003%:c)".toList =
        "/[-a]-~(\u3000/b\x7bf(\"\x7d \")\x7d".toList ++ (['\u2003'] ++ "%:c)".toList) := by
      decide +kernel
    rw [htext, hother]
    exact .between (by decide) (by decide) (by decide) (by decide) (by decide)
  have h := (Relation.ReflTransGen.single hparens).tail hbetween
  obtain ⟨hlexemes, hparse⟩ := parse_respaced h
  exact ⟨h, hlexemes, hparse, by decide +kernel⟩

end Expression

end PathSets
