import PathSets.Proofs.ExpressionGrammar
import PathSets.Proofs.TokenText

/-!
# Reading expressions back

The written form of an expression is read back as the same expression
(`Expression.parse_text`), if its tree is canonical, its leaves are well formed, and it
has no more than `maxDepth` levels.

* On canonical operands each operation only puts its operator on top
  (`Tree.combine_of_keeps`), which is why the phrase stands for the tree that was written.
* `Tree.height`: the number of levels, where the operands of a whole run of unions stand
  on one level.
* `Tree.lexemes`: the tokens of the written form (`Tree.scans_write`).
* `Tree.exists_derives`: these tokens have a phrase that stands for the tree and has its
  levels.  Parentheses are open no more often than the tree has levels.
-/

namespace PathSets

/-! ## Levels -/

namespace Tree

/-- The level that a tree shares with a union above it. -/
def shared (op : Operator) (t : Tree) : Nat :=
  if op.isUnion && t.isJoinedBy op then 1 else 0

/-- The number of levels below the top.  All operands of a run of unions stand on the
level below the whole run. -/
def height : Tree → Nat
  | leaf _ => 0
  | complement operand => operand.height + 1
  | binary op left right =>
    max (left.height - left.shared op) (right.height - right.shared op) + 1

end Tree

theorem Operator.level_injective {op op' : Operator} (h : op.level = op'.level) : op = op' := by
  cases op <;> cases op' <;> first | rfl | exact absurd h (by decide)

theorem Operator.level_le (op : Operator) : op.level ≤ 3 := by
  cases op <;> decide

namespace Tree

variable {op : Operator} {t left right : Tree}

theorem exists_complement_of_level (h : t.level = 4) : ∃ operand, t = complement operand := by
  cases t with
  | leaf l => exact absurd h (show ¬ 5 = 4 by omega)
  | complement operand => exact ⟨operand, rfl⟩
  | binary op left right =>
    have hle := op.level_le
    exact absurd h (show ¬ op.level = 4 by omega)

theorem isJoinedBy_of_level_ne (h : t.level ≠ op.level) : t.isJoinedBy op = false := by
  cases t with
  | leaf l => rfl
  | complement operand => rfl
  | binary o l r =>
    have hne : o ≠ op := by
      rintro rfl
      exact h rfl
    simpa [isJoinedBy] using hne

theorem shared_of_level_ne (h : t.level ≠ op.level) : t.shared op = 0 := by
  simp [shared, isJoinedBy_of_level_ne h]

theorem shared_le (op : Operator) (t : Tree) : t.shared op ≤ 1 := by
  rw [shared]
  split <;> omega

/-- The right operand of an operator shares no level with it. -/
theorem shared_right (h : op.Keeps left right) : right.shared op = 0 := by
  rw [Operator.Keeps] at h
  split at h
  · simp [shared, h]
  · next hunion => simp [shared, hunion]

/-- Only the left operand of a canonical union may share its level. -/
theorem height_binary (h : op.Keeps left right) :
    (binary op left right).height = max (left.height - left.shared op) right.height + 1 := by
  rw [height, shared_right h]
  rfl

theorem shared_binary (op : Operator) (left right : Tree) :
    (binary op left right).shared op = if op.isUnion then 1 else 0 := by
  simp [shared, isJoinedBy]

/-! ## Tokens of a tree -/

end Tree

/-- The tokens of an operator; juxtaposition has none. -/
def Operator.lexemes : Operator → List Lexeme
  | union => [(.union, ['+'])]
  | juxtaposition => []
  | difference => [(.difference, ['-'])]
  | intersection => [(.intersection, ['&'])]

/-- Puts tokens in parentheses where they are needed. -/
def bracketed (needed : Bool) (lexemes : List Lexeme) : List Lexeme :=
  if needed then (.openParen, ['(']) :: lexemes ++ [(.closeParen, [')'])] else lexemes

namespace Tree

/-- The tokens of the written form. -/
def lexemes : Tree → List Lexeme
  | leaf l => [(Token.literalKind l.write, l.write)]
  | complement operand => (.complement, ['~']) :: bracketed (operand.level < 4) operand.lexemes
  | binary op left right =>
    bracketed (left.level < op.level) left.lexemes ++ op.lexemes ++
      bracketed (right.level ≤ op.level) right.lexemes

/-- The written form as an operand where everything looser than `level` needs
parentheses. -/
def writeAt (t : Tree) (level : Nat) : List Char :=
  enclose (t.level < level) t.write

/-- The tokens of `writeAt`. -/
def lexemesAt (t : Tree) (level : Nat) : List Lexeme :=
  bracketed (t.level < level) t.lexemes

end Tree

/-! ## Well-formed trees -/

/-- A leaf that can be written and read back. -/
def Leaf.WellFormed : Leaf → Prop
  | pattern p => p.WellFormed
  | reference r => r.WellFormed

/-- A tree that can be written and read back. -/
structure Tree.WellFormed (t : Tree) : Prop where
  canonical : t.Canonical
  leaves : ∀ l ∈ t.leaves, l.WellFormed

namespace Tree.WellFormed

variable {op : Operator} {t u : Tree}

theorem operand (h : (complement t).WellFormed) : t.WellFormed :=
  ⟨h.canonical.1, h.leaves⟩

theorem left (h : (binary op t u).WellFormed) : t.WellFormed :=
  ⟨h.canonical.1, fun l hl => h.leaves l (List.mem_append_left _ hl)⟩

theorem right (h : (binary op t u).WellFormed) : u.WellFormed :=
  ⟨h.canonical.2.1, fun l hl => h.leaves l (List.mem_append_right _ hl)⟩

end Tree.WellFormed

namespace Leaf

variable {l : Leaf}

theorem WellFormed.grouped_write (hl : l.WellFormed) : Grouped isLiteralChar l.write := by
  cases l with
  | pattern p =>
    exact (Pattern.WellFormed.grouped_write hl).mono fun _ => isLiteralChar_of_isPatternChar
  | reference r => exact Reference.WellFormed.grouped_write hl

theorem WellFormed.write_ne_nil (hl : l.WellFormed) : l.write ≠ [] := by
  cases l with
  | pattern p => exact (Pattern.WellFormed.literalKind_write hl).1
  | reference r => exact r.literalKind_write.1

end Leaf

namespace Tree

variable {op : Operator} {t : Tree} {level : Nat} {rest : List Char} {lexemes : List Lexeme}

theorem lexemesAt_of_le (h : level ≤ t.level) : t.lexemesAt level = t.lexemes := by
  rw [lexemesAt, decide_eq_false (Nat.not_lt.mpr h)]
  rfl

theorem lexemesAt_of_lt (h : t.level < level) :
    t.lexemesAt level = (.openParen, ['(']) :: t.lexemes ++ [(.closeParen, [')'])] := by
  rw [lexemesAt, decide_eq_true h]
  rfl

theorem lexemes_binary (op : Operator) (left right : Tree) :
    (binary op left right).lexemes =
      left.lexemesAt op.level ++ op.lexemes ++ right.lexemesAt (op.level + 1) := by
  rw [Tree.lexemes, lexemesAt, lexemesAt, decide_eq_decide.mpr Nat.lt_succ_iff]

end Tree

section Scans

variable {text rest : List Char} {own lexemes : List Lexeme}

/-- Parentheses around a text are tokens around its tokens. -/
theorem scans_enclose
    (htext : ∀ rest lexemes, Token.Scans rest lexemes →
      StopsBefore (fun c => !endsLiteral c) rest → Token.Scans (text ++ rest) (own ++ lexemes))
    (needed : Bool) (hrest : Token.Scans rest lexemes)
    (hends : StopsBefore (fun c => !endsLiteral c) rest) :
    Token.Scans (enclose needed text ++ rest) (bracketed needed own ++ lexemes) := by
  cases needed with
  | false => exact htext rest lexemes hrest hends
  | true =>
    have hclose : Token.Scans (')' :: rest) ((.closeParen, [')']) :: lexemes) :=
      hrest.operator (by decide) (by decide)
    have hinner := htext _ _ hclose (stopsBefore_cons (by decide))
    have hopen : Token.Scans ('(' :: (text ++ ')' :: rest))
        ((.openParen, ['(']) :: (own ++ (.closeParen, [')']) :: lexemes)) :=
      hinner.operator (by decide) (by decide)
    simpa [enclose, bracketed] using hopen

theorem Operator.scans_write (op : Operator) (hrest : Token.Scans rest lexemes) :
    Token.Scans (op.write ++ rest) (op.lexemes ++ lexemes) := by
  have hblank : Token.Scans (' ' :: rest) lexemes := hrest.blank (by decide)
  have hsign : ∀ {c : Char} {kind : TokenKind}, isBlank c = false → operatorKind? c = some kind →
      Token.Scans (' ' :: c :: ' ' :: rest) ((kind, [c]) :: lexemes) :=
    fun hc hkind => (hblank.operator hc hkind).blank (by decide)
  cases op with
  | juxtaposition => exact hblank
  | union => exact hsign (by decide) (by decide)
  | difference => exact hsign (by decide) (by decide)
  | intersection => exact hsign (by decide) (by decide)

/-- A written tree is cut into its tokens. -/
theorem Tree.scans_write {t : Tree} (ht : ∀ l ∈ t.leaves, l.WellFormed)
    (hrest : Token.Scans rest lexemes) (hends : StopsBefore (fun c => !endsLiteral c) rest) :
    Token.Scans (t.write ++ rest) (t.lexemes ++ lexemes) := by
  induction t generalizing rest lexemes with
  | leaf l =>
    have hl : l.WellFormed := ht l (by simp [leaves])
    exact hrest.literal hl.grouped_write hl.write_ne_nil hends
  | complement operand ih =>
    have hinner := scans_enclose (fun _ _ => ih ht) (operand.level < 4) hrest hends
    exact hinner.operator (by decide) (by decide)
  | binary op left right ihLeft ihRight =>
    have hleft : ∀ l ∈ left.leaves, l.WellFormed :=
      fun l hl => ht l (List.mem_append_left _ hl)
    have hright : ∀ l ∈ right.leaves, l.WellFormed :=
      fun l hl => ht l (List.mem_append_right _ hl)
    have hop : StopsBefore (fun c => !endsLiteral c)
        (op.write ++ (enclose (right.level ≤ op.level) right.write ++ rest)) := by
      cases op <;> exact stopsBefore_cons (by decide)
    have hscan := scans_enclose (fun _ _ => ihLeft hleft) (left.level < op.level)
      (op.scans_write
        (scans_enclose (fun _ _ => ihRight hright) (right.level ≤ op.level) hrest hends)) hop
    simpa [write, Tree.lexemes] using hscan

end Scans

/-! ## Phrases of a tree -/

/-- The tightest nonterminal for the written form of a tree. -/
def Tree.nonterminal : Tree → Nonterminal
  | leaf _ => .operand
  | complement _ => .complement
  | binary op _ _ => .chain op

theorem Tree.level_nonterminal (t : Tree) : t.nonterminal.level = t.level := by
  cases t <;> rfl

section Phrases

variable {op : Operator} {nonterminal other : Nonterminal} {p : Phrase} {t : Tree}
  {front : List Token}

theorem exists_token_of_map_eq {kind : TokenKind} {chars : List Char}
    (h : front.map Token.lexeme = [(kind, chars)]) :
    ∃ token, front = [token] ∧ token.kind = kind ∧ token.chars = chars := by
  obtain ⟨token, rfl, htoken⟩ := List.map_eq_singleton_iff.mp h
  exact ⟨token, rfl, congrArg Prod.fst htoken, congrArg Prod.snd htoken⟩

theorem Operator.map_kind_of_lexemes (h : front.map Token.lexeme = op.lexemes) :
    front.map Token.kind = op.kinds := by
  have hkinds : op.lexemes.map Prod.fst = op.kinds := by cases op <;> rfl
  rw [← hkinds, ← h, List.map_map]
  rfl

theorem Nonterminal.level_le (nonterminal : Nonterminal) : nonterminal.level ≤ 5 := by
  cases nonterminal with
  | operand => exact Nat.le_refl 5
  | complement => exact Nat.le_succ 4
  | chain op => exact Nat.le_trans op.level_le (by decide)

theorem Nonterminal.level_injective (h : nonterminal.level = other.level) :
    nonterminal = other := by
  cases nonterminal with
  | operand =>
    cases other with
    | operand => rfl
    | complement => exact absurd h (by decide)
    | chain op => cases op <;> exact absurd h (by decide)
  | complement =>
    cases other with
    | operand => exact absurd h (by decide)
    | complement => rfl
    | chain op => cases op <;> exact absurd h (by decide)
  | chain op =>
    cases other with
    | operand => cases op <;> exact absurd h (by decide)
    | complement => cases op <;> exact absurd h (by decide)
    | chain op' => rw [Operator.level_injective h]

/-- A phrase that stands for a tree and has its levels.  Parentheses around a tree whose
levels are counted elsewhere go on top of them. -/
structure Phrase.Spells (p : Phrase) (t : Tree) (around : Nat) : Prop where
  value : p.value = .of t
  depth : p.depth = t.height
  nesting : p.nesting ≤ t.height + around

/-- Whatever binds tight enough has a phrase where looser ones may stand too. -/
theorem Derives.loosen {tokens : List Token} {around : Nat}
    (h : Derives nonterminal tokens p) (hp : p.Spells t around)
    (hle : other.level ≤ nonterminal.level) :
    ∃ q, Derives other tokens q ∧ q.Spells t around ∧ ∀ op, q.shared op = p.shared op := by
  -- Each step from `nonterminal` on goes one level down.
  induction hsteps : nonterminal.level - other.level generalizing other with
  | zero =>
    obtain rfl : nonterminal = other := Nonterminal.level_injective (by omega)
    exact ⟨p, h, hp, fun _ => rfl⟩
  | succ steps ih =>
    have hbound := nonterminal.level_le
    cases other with
    | operand =>
      have hlevel : Nonterminal.operand.level = 5 := rfl
      omega
    | complement =>
      have hlevel : Nonterminal.complement.level = 4 := rfl
      obtain rfl : nonterminal = .operand :=
        Nonterminal.level_injective (show nonterminal.level = 5 by omega)
      have hsigned : Derives .complement ([] ++ tokens) (.signed 0 p) := .signed nofun h
      refine ⟨.signed 0 p, hsigned, ⟨hp.value, hp.depth, hp.nesting⟩, fun op => ?_⟩
      exact h.shared_operand.symm
    | chain op =>
      have hlevel : (Nonterminal.chain op).level = op.level := rfl
      have htighter := op.level_tighter
      have hstep : op.tighter.level ≤ nonterminal.level := by omega
      obtain ⟨q, hq, hspells, hshared⟩ := ih hstep (by omega)
      exact ⟨q, .first hq, hspells, hshared⟩

theorem Expression.readLeaf_write {l : Leaf} {token : Token} (hl : l.WellFormed)
    (hkind : token.kind = Token.literalKind l.write) (hchars : token.chars = l.write) :
    readLeaf token = .ok l := by
  cases l with
  | pattern p =>
    have hread : Pattern.read token.chars = .ok p := hchars ▸ Pattern.read_write hl
    have hpattern : token.kind = .pattern := hkind.trans (Pattern.WellFormed.literalKind_write hl).2
    simp only [readLeaf, hpattern, hread]
  | reference r =>
    have hread : Reference.read token.chars = .ok r := hchars ▸ Reference.WellFormed.read_write hl
    have hreference : token.kind = .reference := hkind.trans r.literalKind_write.2
    simp only [readLeaf, hreference, hread]

/-- If the written form of a tree has a phrase, so has its form as an operand. -/
theorem Tree.exists_derivesAt
    (h : ∀ tokens : List Token, tokens.map Token.lexeme = t.lexemes →
      ∃ p, Derives t.nonterminal tokens p ∧ p.Spells t 0 ∧ ∀ op, p.shared op = t.shared op)
    (hfront : front.map Token.lexeme = t.lexemesAt nonterminal.level) :
    ∃ p, Derives nonterminal front p ∧
      p.Spells t (if t.level < nonterminal.level then 1 else 0) ∧
      ∀ op, nonterminal = .chain op → p.shared op = t.shared op := by
  by_cases hlevel : t.level < nonterminal.level
  · rw [lexemesAt_of_lt hlevel] at hfront
    obtain ⟨inside, close, rfl, hinside, hclose⟩ := List.map_eq_append_iff.mp hfront
    obtain ⟨opening, inside, rfl, hopening, hinside⟩ := List.map_eq_cons_iff.mp hinside
    obtain ⟨closing, rfl, hclosing, -⟩ := exists_token_of_map_eq hclose
    have hkind : opening.kind = .openParen := congrArg Prod.fst hopening
    have hloosest : (Nonterminal.chain .union).level ≤ t.nonterminal.level := Nat.zero_le _
    obtain ⟨p, hp, hspells, -⟩ := h inside hinside
    obtain ⟨p, hp, hspells, -⟩ := hp.loosen hspells hloosest
    have hparens : (Phrase.parens p).Spells t 1 :=
      ⟨hspells.value, hspells.depth, Nat.succ_le_succ hspells.nesting⟩
    obtain ⟨q, hq, hspells, hshared⟩ :=
      (Derives.parens hkind hclosing hp).loosen hparens nonterminal.level_le
    rw [if_pos hlevel]
    refine ⟨q, hq, hspells, ?_⟩
    rintro op rfl
    rw [hshared, shared_of_level_ne (Nat.ne_of_lt hlevel)]
    rfl
  · have hle : nonterminal.level ≤ t.level := Nat.not_lt.mp hlevel
    rw [lexemesAt_of_le hle] at hfront
    obtain ⟨p, hp, hspells, hshared⟩ := h front hfront
    obtain ⟨q, hq, hspells, hsame⟩ := hp.loosen hspells (t.level_nonterminal.symm ▸ hle)
    rw [if_neg hlevel]
    exact ⟨q, hq, hspells, fun op _ => (hsame op).trans (hshared op)⟩

/-- Around a complement the same operands need parentheses as around a leaf. -/
theorem lexemesAt_four {t : Tree} (ht : t.level ≠ 4) : t.lexemesAt 4 = t.lexemesAt 5 := by
  have hiff : t.level < 4 ↔ t.level < 5 := by omega
  rw [Tree.lexemesAt, Tree.lexemesAt, decide_eq_decide.mpr hiff]

/-- The written form of a tree has a phrase for the tree. -/
theorem Tree.exists_derives (ht : t.WellFormed) (hfront : front.map Token.lexeme = t.lexemes) :
    ∃ p, Derives t.nonterminal front p ∧ p.Spells t 0 ∧ ∀ op, p.shared op = t.shared op := by
  induction t generalizing front with
  | leaf l =>
    obtain ⟨token, rfl, hkind, hchars⟩ := exists_token_of_map_eq hfront
    have hl : l.WellFormed := ht.leaves l (by simp [leaves])
    have hcases : token.kind = .pattern ∨ token.kind = .reference := by
      rw [hkind, Token.literalKind]
      split
      · exact Or.inr rfl
      · exact Or.inl rfl
    refine ⟨.leaf l, .leaf hcases (Expression.readLeaf_write hl hkind hchars),
      ⟨rfl, rfl, Nat.le_refl 0⟩, fun op => ?_⟩
    simp [Phrase.shared, shared, isJoinedBy]
  | complement operand ih =>
    have hoperand : operand.level ≠ 4 := by
      have hnot : operand.isComplement = false := ht.canonical.2.1
      intro hfour
      obtain ⟨inner, rfl⟩ := exists_complement_of_level hfour
      exact absurd hnot (by simp [isComplement])
    obtain ⟨sign, front, rfl, hsign, hfront⟩ := List.map_eq_cons_iff.mp hfront
    have hkind : sign.kind = .complement := congrArg Prod.fst hsign
    have hinside : front.map Token.lexeme = operand.lexemesAt Nonterminal.operand.level :=
      hfront.trans (lexemesAt_four hoperand)
    obtain ⟨p, hp, hspells, -⟩ :=
      exists_derivesAt (fun tokens htokens => ih ht.operand htokens) hinside
    have hsigns : ∀ s ∈ [sign], s.kind = .complement := by simpa using hkind
    refine ⟨.signed 1 p, .signed hsigns hp, ⟨?_, ?_, ?_⟩, fun op => ?_⟩
    · show Expression.complement p.value = .of (complement operand)
      rw [hspells.value, complement_of_canonical ht.canonical]
    · show p.depth + 1 = operand.height + 1
      rw [hspells.depth]
    · have hnesting := hspells.nesting
      show p.nesting ≤ operand.height + 1
      split at hnesting <;> omega
    · simp [Phrase.shared, shared, isJoinedBy]
  | binary op left right ihLeft ihRight =>
    rw [lexemes_binary] at hfront
    obtain ⟨front, frontRight, rfl, hfront, hright⟩ := List.map_eq_append_iff.mp hfront
    obtain ⟨frontLeft, sign, rfl, hleft, hsign⟩ := List.map_eq_append_iff.mp hfront
    have hleft' : frontLeft.map Token.lexeme = left.lexemesAt (Nonterminal.chain op).level := hleft
    rw [← op.level_tighter] at hright
    obtain ⟨p, hp, hpspells, hshared⟩ :=
      exists_derivesAt (fun tokens htokens => ihLeft ht.left htokens) hleft'
    obtain ⟨q, hq, hqspells, -⟩ :=
      exists_derivesAt (fun tokens htokens => ihRight ht.right htokens) hright
    have hkeeps := ht.canonical.2.2
    have hdepth : (Phrase.join op p q).depth = (binary op left right).height := by
      rw [Phrase.depth, hpspells.depth, hqspells.depth, hshared op rfl, height_binary hkeeps]
    refine ⟨.join op p q, ?_, ⟨?_, hdepth, ?_⟩, fun op' => ?_⟩
    · rw [List.append_assoc]
      exact .link hp (Operator.map_kind_of_lexemes hsign) hq
    · rw [Phrase.value, hpspells.value, hqspells.value, combine_of_keeps hkeeps]
    · -- An operand in parentheses is no union that goes on, so it is less high.
      have hpnesting := hpspells.nesting
      have hqnesting := hqspells.nesting
      have hsharedLe := left.shared_le op
      have hparens : left.level < (Nonterminal.chain op).level → left.shared op = 0 :=
        fun hlt => shared_of_level_ne (Nat.ne_of_lt hlt)
      rw [height_binary hkeeps]
      show max p.nesting q.nesting ≤ _
      split at hpnesting <;> split at hqnesting <;> omega
    · rw [Phrase.shared, shared, isJoinedBy]

end Phrases

namespace Expression

/-- An expression that can be written and read back. -/
def WellFormed : Expression → Prop
  | nothing => True
  | of t => t.WellFormed

/-- The number of levels of an expression. -/
def height : Expression → Nat
  | nothing => 0
  | of t => t.height

/-- Reading the text of an expression gives the expression. -/
theorem parse_text {e : Expression} (he : e.WellFormed) (hheight : e.height ≤ maxDepth) :
    parse e.text = .ok e := by
  cases e with
  | nothing => rfl
  | of t =>
    have hscan := Tree.scans_write (t := t) he.leaves Token.scans_nil stopsBefore_nil
    rw [List.append_nil, List.append_nil] at hscan
    obtain ⟨tokens, htokens, hmap⟩ := hscan _ 0 (Nat.le_refl _)
    have htext : (text (of t)).toList = t.write := String.toList_ofList
    have hscan' : Token.scan (text (of t)).toList = .ok tokens := by
      rw [htext]
      exact htokens
    have hloosest : (Nonterminal.chain .union).level ≤ t.nonterminal.level := Nat.zero_le _
    obtain ⟨p, hp, hspells, -⟩ := Tree.exists_derives he hmap
    obtain ⟨q, hq, hspells, -⟩ := hp.loosen hspells hloosest
    have hwhole : readTokens tokens = .ok (of t) :=
      readTokens_eq_ok_iff.mpr (Or.inr ⟨q, hq, Nat.le_trans hspells.nesting hheight,
        hspells.depth.symm ▸ hheight, hspells.value⟩)
    simp only [parse, hscan', hwhole, ok_mapError]

end Expression

end PathSets
