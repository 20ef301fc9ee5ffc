import PathSets.Proofs.ExpressionGrammar
import PathSets.Proofs.StopPlaces

/-!
# Tokens that expressions are read from

The readers of expressions pass over tokens, and the parentheses among these are those they
account for.  They stop at one of the tokens, or within it where a pattern or a reference stops
(`Misplaced.IsAt`).  Each level of the grammar is followed to see this (`Trail.Follows`), up to
all of the tokens (`Expression.follows_readTokens`).
-/

namespace PathSets

/-- The parenthesis that a token is. -/
def Token.paren? (token : Token) : Option Paren :=
  match token.kind with
  | .openParen => some (.opening .group)
  | .closeParen => some (.closing .group)
  | _ => none

/-- The parentheses among some tokens. -/
def Token.parens (tokens : List Token) : List Paren :=
  tokens.filterMap paren?

/-- Whether a fault is at the first of these tokens, or within it. -/
inductive Misplaced.IsAt : Misplaced → List Token → Prop
  | atHead (tokens : List Token) (fault : ExpressionFault) : IsAt (.atHead tokens fault) tokens
  | inToken {token : Token} {stop : Stop ExpressionFault} (h : stop.rest <:+ token.chars)
      (tokens : List Token) : IsAt (.inToken token stop) (token :: tokens)

instance : Source Token Misplaced where
  Passes start rest passed := ∃ front, start = front ++ rest ∧ passed = Token.parens front
  IsAt := Misplaced.IsAt
  passes_refl _ := ⟨[], rfl, rfl⟩
  passes_trans := by
    rintro _ _ rest _ _ ⟨front, rfl, rfl⟩ ⟨more, rfl, rfl⟩
    exact ⟨front ++ more, (List.append_assoc ..).symm, List.filterMap_append.symm⟩
  suffix_of_passes := by
    rintro _ rest _ ⟨front, rfl, -⟩
    exact List.suffix_append front rest

section Passes

variable {op : Operator} {token : Token} {tokens start : List Token}

theorem Token.passes_cons (token : Token) (tokens : List Token) :
    Source.Passes (token :: tokens) tokens token.paren?.toList := by
  refine ⟨[token], rfl, ?_⟩
  cases h : token.paren? <;> simp [Token.parens, h]

/-- The tokens of an operator have no parentheses in them. -/
theorem Operator.passes_joint? (h : op.joint? tokens = some (token, start)) :
    Source.Passes tokens start [] := by
  obtain ⟨sign, rfl, hsign⟩ := Expression.exists_sign_of_joint? h
  refine ⟨sign, rfl, (List.filterMap_eq_nil_iff.mpr fun token htoken => ?_).symm⟩
  have hkind : token.kind ∈ op.kinds := hsign ▸ List.mem_map_of_mem htoken
  cases op <;> simp_all [Operator.kinds, Token.paren?]

theorem Operator.head?_of_joint? (h : op.joint? tokens = some (token, start)) :
    tokens.head? = some token := by
  cases tokens with
  | nil => exact absurd h (by simp [joint?])
  | cons first tokens =>
    obtain ⟨-, heq⟩ := Option.ite_none_right_eq_some.mp h
    obtain ⟨rfl, -⟩ := Prod.mk.inj (Option.some.inj heq)
    rfl

theorem Expression.passes_skipComplements (odd : Bool) (tokens : List Token) :
    Source.Passes tokens (skipComplements odd tokens).2 [] := by
  induction tokens generalizing odd with
  | nil => exact Source.passes_refl _
  | cons token tokens ih =>
    rw [skipComplements]
    split
    · next hkind =>
      have htoken := token.passes_cons tokens
      rw [Token.paren?, hkind] at htoken
      exact Source.passes_trans htoken (ih _)
    · exact Source.passes_refl _

end Passes

namespace Expression

variable {op : Operator} {opened : Opened}
  {followed : List Token → Trail Misplaced (Parsed × List Token)}
  {operand : List Token → Except Misplaced (Parsed × List Token)}

/-- A leaf is one token, and where it is none the fault is in that token. -/
theorem follows_readLeaf {token : Token} {tokens : List Token}
    (hkind : token.kind = .pattern ∨ token.kind = .reference) :
    Trail.Follows (token :: tokens) ⟨token :: tokens, opened⟩ (fun _ => ⟨tokens, opened⟩)
      (Walk.lift (readLeaf token)) (readLeaf token) where
  result := rfl
  of_ok _ _ := by
    have htoken := token.passes_cons tokens
    rcases hkind with hkind | hkind
    · rw [Token.paren?, hkind] at htoken
      exact ⟨htoken, .done _⟩
    · rw [Token.paren?, hkind] at htoken
      exact ⟨htoken, .done _⟩
  of_error misplaced hmisplaced := by
    have hplace : Source.IsAt misplaced (token :: tokens) := by
      rw [readLeaf.eq_def] at hmisplaced
      split at hmisplaced
      · split at hmisplaced
        · exact absurd hmisplaced (by simp)
        · next stop hstop =>
          obtain rfl := Except.error.inj hmisplaced
          have hrest := (Pattern.stopsIn_read token.chars).kind_of_error stop hstop
          rw [← List.append_nil stop.rest] at hrest
          exact .inToken hrest tokens
      · split at hmisplaced
        · exact absurd hmisplaced (by simp)
        · next stop hstop =>
          obtain rfl := Except.error.inj hmisplaced
          have hrest := (Reference.stopsIn_read token.chars).kind_of_error stop hstop
          exact .inToken hrest tokens
    exact ⟨_, _, ⟨Source.passes_refl _, .done _⟩, List.suffix_rfl, List.suffix_rfl, hplace⟩

/-- An operand opens and closes a group around what stands in it. -/
theorem keeps_readOperand
    {inner : Option (List Token → Trail Misplaced (Parsed × List Token))}
    {inner' : Option (List Token → Except Misplaced (Parsed × List Token))}
    (hinner : Option.Rel (fun followed read => opened .group < maxDepth ∧
      Trail.Keeps (opened.enter .group) followed read) inner inner') :
    Trail.Keeps opened (readOperand inner) (readOperand inner') := by
  intro tokens
  unfold readOperand
  split
  · exact .stop (.atHead ..) List.suffix_rfl List.suffix_rfl
  next token tokens =>
  split
  · next hkind => exact (follows_readLeaf (Or.inl hkind)).bind fun _ _ => .done rfl
  · next hkind => exact (follows_readLeaf (Or.inr hkind)).bind fun _ _ => .done rfl
  · next hkind =>
    cases hinner with
    | none => exact .stop (.atHead ..) List.suffix_rfl List.suffix_rfl
    | some h =>
      obtain ⟨hlimit, hread⟩ := h
      have hopening := token.passes_cons tokens
      rw [Token.paren?, hkind] at hopening
      refine (Trail.Follows.pass (.opening hopening hlimit)).bind fun _ htokens => ?_
      refine ((hread tokens).mono htokens).bind ?_
      rintro ⟨found, rest⟩ hrest
      dsimp only
      split
      · exact .stop (.atHead ..) List.suffix_rfl (hrest.trans htokens)
      next close rest =>
      split
      · next hkind =>
        have hclosing := close.passes_cons rest
        rw [Token.paren?, hkind] at hclosing
        exact (Trail.Follows.pass (.closing hclosing)).bind fun _ _ => .done rfl
      · exact .stop (.atHead ..) List.suffix_rfl (hrest.trans htokens)
  · exact .stop (.atHead ..) List.suffix_rfl List.suffix_rfl

theorem keeps_readComplement (h : Trail.Keeps opened followed operand) :
    Trail.Keeps opened (readComplement followed) (readComplement operand) := by
  intro tokens
  refine ((h _).after (passes_skipComplements false tokens)).bind ?_
  rintro ⟨found, rest⟩ hrest
  dsimp only
  split
  · split
    · exact .stop (.atHead ..) hrest List.suffix_rfl
    · exact .done rfl
  · exact .done rfl

theorem keeps_chain (h : Trail.Keeps opened followed operand) (limit : Nat) (first : Parsed)
    (deepest : Nat) :
    Trail.Keeps opened (chain op followed limit first deepest)
      (chain op operand limit first deepest) := by
  induction limit generalizing first deepest with
  | zero => exact fun tokens => .done rfl
  | succ limit ih =>
    intro tokens
    unfold chain
    split
    · exact .done rfl
    next token start hjoint =>
    have hplace : Misplaced.IsAt ⟨some token.offset, .tooDeep⟩ tokens := by
      have hhead := Misplaced.IsAt.atHead tokens .tooDeep
      rwa [Misplaced.atHead, Operator.head?_of_joint? hjoint] at hhead
    refine ((h start).after (Operator.passes_joint? hjoint)).bind ?_
    rintro ⟨next, rest⟩ hrest
    dsimp only
    split
    · exact .stop hplace hrest List.suffix_rfl
    · exact (ih _ _ rest).mono hrest

theorem keeps_readChain (h : Trail.Keeps opened followed operand) :
    Trail.Keeps opened (readChain op followed) (readChain op operand) := by
  intro tokens
  refine (h tokens).bind ?_
  rintro ⟨first, rest⟩ hrest
  exact (keeps_chain h _ first _ rest).mono hrest

/-- An expression is read within the parentheses that may still be opened. -/
theorem keeps_readNested (nesting : Nat) (hgroup : opened .group + nesting ≤ maxDepth) :
    Trail.Keeps opened (readNested nesting) (readNested nesting) := by
  have hlevels : ∀ {opened : Opened}
      {inner : Option (List Token → Trail Misplaced (Parsed × List Token))}
      {inner' : Option (List Token → Except Misplaced (Parsed × List Token))},
      Trail.Keeps opened (readOperand inner) (readOperand inner') →
        Trail.Keeps opened (readLevels inner) (readLevels inner') := fun h =>
    keeps_readChain (keeps_readChain (keeps_readChain (keeps_readChain (keeps_readComplement h))))
  induction nesting generalizing opened with
  | zero => exact hlevels (keeps_readOperand .none)
  | succ nesting ih =>
    have hinner : Trail.Keeps (opened.enter .group) (readNested nesting) (readNested nesting) := by
      refine ih ?_
      rw [Opened.enter_self]
      omega
    exact hlevels (keeps_readOperand (.some ⟨by omega, hinner⟩))

/-- Followed through tokens, the reader of expressions reads them all, or at least up to the place
of an error among them, and has never more open than may be. -/
theorem follows_readTokens (tokens : List Token) :
    Trail.Follows tokens ⟨tokens, fun _ => 0⟩ (fun _ => ⟨[], fun _ => 0⟩) (readTokens tokens)
      (readTokens tokens) := by
  unfold readTokens
  split
  · next hempty =>
    obtain rfl := List.isEmpty_iff.mp hempty
    exact .done rfl
  refine (keeps_readNested maxDepth (Nat.le_of_eq (Nat.zero_add _)) tokens).bind ?_
  rintro ⟨parsed, rest⟩ hrest
  dsimp only
  split
  · exact .done rfl
  · exact .stop (.atHead ..) List.suffix_rfl hrest

end Expression

end PathSets
