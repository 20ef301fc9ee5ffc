import PathSets.Expression.Reader
import PathSets.Proofs.OrderlyForm

/-!
# The grammar of expressions

A phrase says how an expression is put together in its text, parentheses and all.
`Derives` gives the phrases that tokens have in the grammar

    union         :=  juxtaposition (('+' | '|') juxtaposition)*
    juxtaposition :=  difference difference*
    difference    :=  intersection ('-' intersection)*
    intersection  :=  complement ('&' complement)*
    complement    :=  '~'* operand
    operand       :=  pattern | reference | '(' union ')'

and `Phrase.value` what a phrase stands for.

Each level of the reader reads what its nonterminal derives, to the last token that can
belong to it, and finds the value and the depth of the phrase (`Expression.Recognizes`).
Hence a text is read exactly if its tokens have a phrase that keeps to the limits, and the
value of the phrase is what is read (`Expression.parse_eq_ok_iff`).
-/

namespace PathSets

variable {op : Operator} {token : Token} {tokens front rest : List Token}

/-! ## Phrases -/

/-- A part of a text, with the parts that it is made of. -/
inductive Phrase where
  | leaf (leaf : Leaf)
  | parens (inner : Phrase)
  /-- An operand behind a number of complement signs, maybe none. -/
  | signed (signs : Nat) (operand : Phrase)
  | join (op : Operator) (left right : Phrase)

namespace Phrase

/-- What a phrase stands for. -/
def value : Phrase → Expression
  | leaf l => .of (.leaf l)
  | parens inner => inner.value
  | signed signs operand => Nat.repeat Expression.complement signs operand.value
  | join op left right => .combine op left.value right.value

/-- The number of parentheses that are open at once. -/
def nesting : Phrase → Nat
  | leaf _ => 0
  | parens inner => inner.nesting + 1
  | signed _ operand => operand.nesting
  | join _ left right => max left.nesting right.nesting

/-- The levels that a union has in common with the phrase on its left: one, if that goes on
with a union of its kind. -/
def shared (op : Operator) : Phrase → Nat
  | join o _ _ => if op.isUnion && o == op then 1 else 0
  | _ => 0

/-- The number of levels.  Complement signs cancel in pairs, parentheses count for nothing,
and the operands of a whole run of unions stand on one level. -/
def depth : Phrase → Nat
  | leaf _ => 0
  | parens inner => inner.depth
  | signed signs operand => operand.depth + signs % 2
  | join op left right => max (left.depth - left.shared op) right.depth + 1

theorem shared_le (op : Operator) (p : Phrase) : p.shared op ≤ 1 := by
  cases p with
  | join o left right =>
    rw [shared]
    split <;> omega
  | leaf l => exact Nat.zero_le 1
  | parens inner => exact Nat.zero_le 1
  | signed signs operand => exact Nat.zero_le 1

/-- What the next operator of the same chain counts of the levels of a phrase. -/
theorem depth_sub_shared_join (op : Operator) (left right : Phrase) :
    (join op left right).depth - (join op left right).shared op =
      if op.isUnion then max (left.depth - left.shared op) right.depth
      else max (left.depth - left.shared op) right.depth + 1 := by
  by_cases hunion : op.isUnion = true
  · simp [depth, shared, hunion]
  · simp [depth, shared, hunion]

/-- A run of unions is one level above its deepest operand. -/
theorem depth_run (hunion : op.isUnion = true) {first : Phrase} (hfirst : first.shared op = 0)
    {more : List Phrase} (hmore : more ≠ []) :
    (more.foldl (join op) first).depth = (more.map depth).foldl max first.depth + 1 := by
  -- What counts below the run is the deepest operand so far, from the first operand on.
  have hbelow : ∀ p : Phrase, (more.foldl (join op) p).depth - (more.foldl (join op) p).shared op =
      (more.map depth).foldl max (p.depth - p.shared op) := by
    clear hmore
    induction more with
    | nil => exact fun p => rfl
    | cons next more ih =>
      intro p
      rw [List.foldl_cons, ih, depth_sub_shared_join, if_pos hunion]
      rfl
  obtain ⟨init, last, rfl⟩ : ∃ init last, more = init ++ [last] :=
    ⟨_, _, (List.dropLast_concat_getLast hmore).symm⟩
  have hall := hbelow first
  rw [List.foldl_append, List.foldl_cons, List.foldl_nil, depth_sub_shared_join, if_pos hunion,
    hfirst, Nat.sub_zero] at hall
  rw [List.foldl_append, List.foldl_cons, List.foldl_nil, depth, hall]

/-- Whether a phrase keeps to the limits. -/
structure Within (nesting : Nat) (p : Phrase) : Prop where
  nesting : p.nesting ≤ nesting
  depth : p.depth ≤ maxDepth

/-- What the reader reports of a phrase. -/
def parsed (p : Phrase) : Expression.Parsed :=
  ⟨p.value, p.depth⟩

end Phrase

/-! ## Derivations -/

/-- The nonterminals of the grammar.  A chain is a run of operands of one operator. -/
inductive Nonterminal where
  | operand
  | complement
  | chain (op : Operator)

/-- The operands of a chain. -/
def Operator.tighter : Operator → Nonterminal
  | union => .chain .juxtaposition
  | juxtaposition => .chain .difference
  | difference => .chain .intersection
  | intersection => .complement

/-- How tight a nonterminal binds. -/
def Nonterminal.level : Nonterminal → Nat
  | operand => 5
  | complement => 4
  | chain op => op.level

theorem Operator.level_tighter (op : Operator) : op.tighter.level = op.level + 1 := by
  cases op <;> rfl

/-- The kinds of the tokens of an operator; juxtaposition has none. -/
def Operator.kinds : Operator → List TokenKind
  | union => [.union]
  | juxtaposition => []
  | difference => [.difference]
  | intersection => [.intersection]

/-- The phrases that tokens have as a nonterminal. -/
inductive Derives : Nonterminal → List Token → Phrase → Prop
  | leaf {token : Token} {l : Leaf} (hkind : token.kind = .pattern ∨ token.kind = .reference)
      (hread : Expression.readLeaf token = .ok l) : Derives .operand [token] (.leaf l)
  | parens {opening closing : Token} {inside : List Token} {p : Phrase}
      (hopening : opening.kind = .openParen) (hclosing : closing.kind = .closeParen)
      (h : Derives (.chain .union) inside p) :
      Derives .operand (opening :: inside ++ [closing]) (.parens p)
  | signed {signs tokens : List Token} {p : Phrase}
      (hsigns : ∀ sign ∈ signs, sign.kind = .complement) (h : Derives .operand tokens p) :
      Derives .complement (signs ++ tokens) (.signed signs.length p)
  | first {op : Operator} {tokens : List Token} {p : Phrase} (h : Derives op.tighter tokens p) :
      Derives (.chain op) tokens p
  | link {op : Operator} {left sign right : List Token} {p q : Phrase}
      (hleft : Derives (.chain op) left p) (hsign : sign.map Token.kind = op.kinds)
      (hright : Derives op.tighter right q) :
      Derives (.chain op) (left ++ (sign ++ right)) (.join op p q)

/-- Whether a token of this kind begins an operand. -/
def TokenKind.Begins (kind : TokenKind) : Prop :=
  kind = .pattern ∨ kind = .reference ∨ kind = .openParen ∨ kind = .complement

theorem Operator.beginsOperand_iff {token : Token} :
    beginsOperand token = true ↔ token.kind.Begins := by
  obtain ⟨kind, chars, offset⟩ := token
  cases kind <;> simp [beginsOperand, TokenKind.Begins]

/-- Whether the tokens begin with one that begins an operand. -/
def StartsOperand (tokens : List Token) : Prop :=
  ∃ first more, tokens = first :: more ∧ first.kind.Begins

namespace Derives

variable {nonterminal : Nonterminal} {p left right : Phrase}

/-- Where an operator joins a phrase, the phrase is a chain of it or of a looser one. -/
theorem level_le (h : Derives nonterminal tokens p) (hp : p = .join op left right) :
    nonterminal.level ≤ op.level := by
  induction h with
  | leaf => exact absurd hp (by simp)
  | parens => exact absurd hp (by simp)
  | signed => exact absurd hp (by simp)
  | @first o tokens p _ ih =>
    have hle := ih hp
    rw [Operator.level_tighter] at hle
    exact Nat.le_of_succ_le hle
  | link =>
    obtain ⟨rfl, -, -⟩ := Phrase.join.inj hp
    exact Nat.le_refl _

/-- An operand of a chain is no such chain itself. -/
theorem shared_eq_zero (h : Derives op.tighter tokens p) : p.shared op = 0 := by
  cases p with
  | leaf l => rfl
  | parens inner => rfl
  | signed signs operand => rfl
  | join o left right =>
    have hle := h.level_le rfl
    have hne : o ≠ op := by
      rintro rfl
      rw [Operator.level_tighter] at hle
      omega
    simp [Phrase.shared, hne]

theorem shared_operand (h : Derives .operand tokens p) : p.shared op = 0 := by
  cases h <;> rfl

/-- All phrases begin with what begins an operand, and operands with no complement sign. -/
theorem starts (h : Derives nonterminal tokens p) :
    ∃ first more, tokens = first :: more ∧ first.kind.Begins ∧
      (nonterminal = .operand → first.kind ≠ .complement) := by
  induction h with
  | @leaf token l hkind hread =>
    refine ⟨token, [], rfl, ?_, fun _ => ?_⟩
    · rcases hkind with hkind | hkind
      · exact Or.inl hkind
      · exact Or.inr (Or.inl hkind)
    · rcases hkind with hkind | hkind <;> simp [hkind]
  | @parens opening closing inside p hopening =>
    exact ⟨opening, _, rfl, Or.inr (Or.inr (Or.inl hopening)), fun _ => by simp [hopening]⟩
  | @signed signs tokens p hsigns _ ih =>
    cases signs with
    | nil =>
      obtain ⟨first, more, heq, hbegins, -⟩ := ih
      exact ⟨first, more, heq, hbegins, nofun⟩
    | cons sign signs =>
      have hkind := hsigns sign (by simp)
      exact ⟨sign, _, rfl, Or.inr (Or.inr (Or.inr hkind)), nofun⟩
  | first _ ih =>
    obtain ⟨first, more, heq, hbegins, -⟩ := ih
    exact ⟨first, more, heq, hbegins, nofun⟩
  | link _ _ _ ih _ =>
    obtain ⟨first, more, rfl, hbegins, -⟩ := ih
    exact ⟨first, _, rfl, hbegins, nofun⟩

theorem startsOperand (h : Derives nonterminal tokens p) : StartsOperand tokens := by
  obtain ⟨first, more, heq, hbegins, -⟩ := h.starts
  exact ⟨first, more, heq, hbegins⟩

end Derives

theorem Leaf.orderly_of_readLeaf {l : Leaf} (h : Expression.readLeaf token = .ok l) :
    l.Orderly := by
  rw [Expression.readLeaf.eq_def] at h
  split at h
  · split at h
    · next p hread =>
      obtain rfl := Except.ok.inj h
      exact (Pattern.wellFormed_of_read hread).orderly
    · exact absurd h (by simp)
  · split at h
    · obtain rfl := Except.ok.inj h
      trivial
    · exact absurd h (by simp)

theorem Derives.orderly {nonterminal : Nonterminal} {p : Phrase}
    (h : Derives nonterminal tokens p) : p.value.Orderly := by
  induction h with
  | leaf _ hread => exact Expression.orderly_leaf (Leaf.orderly_of_readLeaf hread)
  | parens _ _ _ ih => exact ih
  | signed _ _ ih => exact (ih.repeat_complement _).1
  | first _ ih => exact ih
  | link _ _ _ ihLeft ihRight => exact Expression.closed_orderly.combine _ ihLeft ihRight

namespace Expression

/-! ## Places between operands -/

/-- What may follow an operand of a level: no operator that binds as tight or tighter goes
on there. -/
def Stops (level : Nat) (rest : List Token) : Prop :=
  ∀ op : Operator, level ≤ op.level → op.joint? rest = none

section Stops

variable {level : Nat}

theorem Stops.mono {level' : Nat} (h : Stops level rest) (hle : level ≤ level') :
    Stops level' rest :=
  fun op hop => h op (Nat.le_trans hle hop)

theorem stops_nil : Stops level [] := fun _ _ => rfl

theorem joint?_cons_eq_none (h : op.continuesAt token = false) :
    op.joint? (token :: rest) = none := by
  simp [Operator.joint?, h]

theorem stops_close (h : token.kind = .closeParen) : Stops level (token :: rest) := by
  intro op _
  refine joint?_cons_eq_none ?_
  cases op <;> simp [Operator.continuesAt, Operator.beginsOperand, h]

/-- An operator is found before an operand, and its right operand is what comes next. -/
theorem joint?_sign {sign : List Token} (hsign : sign.map Token.kind = op.kinds)
    (hfront : StartsOperand front) :
    ∃ token, op.joint? (sign ++ (front ++ rest)) = some (token, front ++ rest) := by
  cases op with
  | juxtaposition =>
    obtain ⟨first, front, rfl, hfirst⟩ := hfront
    obtain rfl : sign = [] := by simpa [Operator.kinds] using hsign
    have hbegin : Operator.beginsOperand first = true := Operator.beginsOperand_iff.mpr hfirst
    exact ⟨first, by simp [Operator.joint?, Operator.continuesAt, hbegin]⟩
  | union =>
    obtain ⟨token, rfl, hkind⟩ := List.map_eq_singleton_iff.mp hsign
    exact ⟨token, by simp [Operator.joint?, Operator.continuesAt, hkind]⟩
  | difference =>
    obtain ⟨token, rfl, hkind⟩ := List.map_eq_singleton_iff.mp hsign
    exact ⟨token, by simp [Operator.joint?, Operator.continuesAt, hkind]⟩
  | intersection =>
    obtain ⟨token, rfl, hkind⟩ := List.map_eq_singleton_iff.mp hsign
    exact ⟨token, by simp [Operator.joint?, Operator.continuesAt, hkind]⟩

/-- No operator that binds tighter goes on where one is written. -/
theorem stops_sign {sign : List Token} (hsign : sign.map Token.kind = op.kinds)
    (hfront : StartsOperand front) : Stops (op.level + 1) (sign ++ (front ++ rest)) := by
  intro op' hlevel
  cases op with
  | juxtaposition =>
    obtain ⟨first, front, rfl, hfirst⟩ := hfront
    obtain rfl : sign = [] := by simpa [Operator.kinds] using hsign
    refine joint?_cons_eq_none ?_
    cases op' with
    | union => exact absurd hlevel (by decide)
    | juxtaposition => exact absurd hlevel (by decide)
    | difference => rcases hfirst with h | h | h | h <;> simp [Operator.continuesAt, h]
    | intersection => rcases hfirst with h | h | h | h <;> simp [Operator.continuesAt, h]
  | union =>
    obtain ⟨token, rfl, hkind⟩ := List.map_eq_singleton_iff.mp hsign
    refine joint?_cons_eq_none ?_
    cases op' with
    | union => exact absurd hlevel (by decide)
    | juxtaposition => simp [Operator.continuesAt, Operator.beginsOperand, hkind]
    | difference => simp [Operator.continuesAt, hkind]
    | intersection => simp [Operator.continuesAt, hkind]
  | difference =>
    obtain ⟨token, rfl, hkind⟩ := List.map_eq_singleton_iff.mp hsign
    refine joint?_cons_eq_none ?_
    cases op' with
    | union => exact absurd hlevel (by decide)
    | juxtaposition => exact absurd hlevel (by decide)
    | difference => exact absurd hlevel (by decide)
    | intersection => simp [Operator.continuesAt, hkind]
  | intersection => cases op' <;> exact absurd hlevel (by decide)

end Stops

/-! ## Readers -/

variable {reader : List Token → Except Misplaced (Parsed × List Token)}
  {inner : Option (List Token → Except Misplaced (Parsed × List Token))}
  {nonterminal : Nonterminal} {nesting limit : Nat} {p q : Phrase} {parsed : Parsed}

/-- A reader of a nonterminal: what it reads is a phrase within the limits, and it reads each
one behind which it has to stop. -/
structure Recognizes (reader : List Token → Except Misplaced (Parsed × List Token))
    (nonterminal : Nonterminal) (nesting : Nat) : Prop where
  sound : ∀ tokens parsed rest, reader tokens = .ok (parsed, rest) →
    ∃ front p, tokens = front ++ rest ∧ Derives nonterminal front p ∧ p.Within nesting ∧
      parsed = p.parsed
  complete : ∀ front p rest, Derives nonterminal front p → p.Within nesting →
    Stops nonterminal.level rest → reader (front ++ rest) = .ok (p.parsed, rest)

/-- Operands are recognized if one parenthesis less is recognized within them. -/
theorem Recognizes.operand (hnone : nesting = 0 → inner = none)
    (hsome : ∀ n, nesting = n + 1 →
      ∃ read, inner = some read ∧ Recognizes read (.chain .union) n) :
    Recognizes (readOperand inner) .operand nesting where
  sound := by
    intro tokens parsed rest h
    rw [readOperand.eq_def] at h
    split at h
    · exact absurd h (by simp)
    next token more =>
    have hleaf : token.kind = .pattern ∨ token.kind = .reference →
        (do return (⟨of (.leaf (← readLeaf token)), 0⟩, more)) = Except.ok (parsed, rest) →
        ∃ front p, token :: more = front ++ rest ∧ Derives .operand front p ∧
          p.Within nesting ∧ parsed = p.parsed := by
      intro hkind h
      obtain ⟨l, hl, hresult⟩ := bind_eq_ok.mp h
      obtain ⟨rfl, rfl⟩ := Prod.mk.inj (Except.ok.inj hresult)
      exact ⟨[token], .leaf l, rfl, .leaf hkind hl, ⟨Nat.zero_le _, Nat.zero_le _⟩, rfl⟩
    split at h
    · next hkind => exact hleaf (Or.inl hkind) h
    · next hkind => exact hleaf (Or.inr hkind) h
    · next hopening =>
      cases nesting with
      | zero =>
        rw [hnone rfl] at h
        exact absurd h (by simp)
      | succ nesting =>
        obtain ⟨read, rfl, hread⟩ := hsome nesting rfl
        simp only [Walk.pass_bind] at h
        obtain ⟨⟨found, after⟩, hfound, hresult⟩ := bind_eq_ok.mp h
        obtain ⟨inside, p, rfl, hp, hwithin, rfl⟩ := hread.sound _ _ _ hfound
        dsimp only at hresult
        split at hresult
        · exact absurd hresult (by simp)
        next closing after =>
        split at hresult
        · next hclosing =>
          obtain ⟨rfl, rfl⟩ := Prod.mk.inj (Except.ok.inj hresult)
          refine ⟨token :: inside ++ [closing], .parens p, by simp, .parens hopening hclosing hp,
            ⟨Nat.succ_le_succ hwithin.nesting, hwithin.depth⟩, rfl⟩
        · exact absurd hresult (by simp)
    · exact absurd h (by simp)
  complete := by
    intro front p rest h hwithin _
    cases h with
    | @leaf token l hkind hread =>
      rcases hkind with hkind | hkind
      · simp only [List.singleton_append, readOperand, hkind, hread]
        rfl
      · simp only [List.singleton_append, readOperand, hkind, hread]
        rfl
    | @parens opening closing inside p hopening hclosing h =>
      cases nesting with
      | zero => exact absurd hwithin.nesting (Nat.not_succ_le_zero _)
      | succ nesting =>
        obtain ⟨read, rfl, hread⟩ := hsome nesting rfl
        have hinside : read (inside ++ closing :: rest) = .ok (p.parsed, closing :: rest) :=
          hread.complete inside p (closing :: rest) h
            ⟨Nat.le_of_succ_le_succ hwithin.nesting, hwithin.depth⟩ (stops_close hclosing)
        simp only [List.cons_append, List.append_assoc, List.nil_append, readOperand, hopening,
          hinside, ok_bind, hclosing, if_true]
        rfl

/-! ### Complement signs -/

/-- Complement signs are taken as far as they go. -/
theorem skipComplements_append {signs : List Token}
    (hsigns : ∀ sign ∈ signs, sign.kind = .complement)
    (hrest : ∀ token ∈ rest.head?, token.kind ≠ .complement) (odd : Bool) :
    skipComplements odd (signs ++ rest) = (odd ^^ decide (signs.length % 2 = 1), rest) := by
  induction signs generalizing odd with
  | nil =>
    cases rest with
    | nil => simp [skipComplements]
    | cons token rest => simp [skipComplements, hrest token rfl]
  | cons sign signs ih =>
    rw [List.cons_append, skipComplements, if_pos (hsigns sign (by simp)),
      ih fun s hs => hsigns s (List.mem_cons_of_mem sign hs)]
    have hparity : decide ((sign :: signs).length % 2 = 1) = !decide (signs.length % 2 = 1) := by
      rw [List.length_cons, ← decide_not, decide_eq_decide]
      omega
    rw [hparity]
    cases odd <;> simp

/-- All tokens are complement signs and what begins with none. -/
theorem exists_signs (tokens : List Token) :
    ∃ signs rest, tokens = signs ++ rest ∧ (∀ sign ∈ signs, sign.kind = .complement) ∧
      ∀ token ∈ rest.head?, token.kind ≠ .complement := by
  induction tokens with
  | nil => exact ⟨[], [], rfl, nofun, nofun⟩
  | cons token tokens ih =>
    by_cases hkind : token.kind = .complement
    · obtain ⟨signs, rest, rfl, hsigns, hrest⟩ := ih
      refine ⟨token :: signs, rest, rfl, fun sign hsign => ?_, hrest⟩
      rcases List.mem_cons.mp hsign with rfl | hsign
      · exact hkind
      · exact hsigns sign hsign
    · refine ⟨[], token :: tokens, rfl, nofun, fun first hfirst => ?_⟩
      obtain rfl : token = first := Option.some.inj hfirst
      exact hkind

/-- What is read from complement signs and an operand. -/
theorem readComplement_append {signs : List Token}
    (hsigns : ∀ sign ∈ signs, sign.kind = .complement)
    (htokens : ∀ token ∈ tokens.head?, token.kind ≠ .complement)
    (hread : reader tokens = .ok (p.parsed, rest)) (horderly : p.value.Orderly)
    (hdepth : p.depth ≤ maxDepth) :
    readComplement reader (signs ++ tokens) =
      if p.depth + signs.length % 2 > maxDepth then .error (.atHead (signs ++ tokens) .tooDeep)
      else .ok ((Phrase.signed signs.length p).parsed, rest) := by
  have hvalue : (Phrase.signed signs.length p).value =
      if signs.length % 2 = 1 then p.value.complement else p.value :=
    (horderly.repeat_complement signs.length).2
  rw [readComplement, skipComplements_append hsigns htokens]
  by_cases hodd : signs.length % 2 = 1
  · simp only [hread, ok_bind, hodd, decide_true, Bool.false_bne, if_true, Phrase.parsed,
      Phrase.depth, hvalue]
    rfl
  · have heven : signs.length % 2 = 0 := by omega
    have hbound : ¬ p.depth + 0 > maxDepth := Nat.not_lt.mpr hdepth
    simp only [hread, ok_bind, Phrase.parsed, Phrase.depth, hvalue, heven, if_neg hbound]
    rfl

/-- Operands with complement signs are recognized if operands are. -/
theorem Recognizes.complement (h : Recognizes reader .operand nesting) :
    Recognizes (readComplement reader) .complement nesting where
  sound := by
    intro tokens parsed rest hread
    obtain ⟨signs, start, rfl, hsigns, hstart⟩ := exists_signs tokens
    have hbind := hread
    rw [readComplement, skipComplements_append hsigns hstart] at hbind
    obtain ⟨⟨found, after⟩, hfound, -⟩ := bind_eq_ok.mp hbind
    obtain ⟨front, p, rfl, hp, hwithin, rfl⟩ := h.sound _ _ _ hfound
    rw [readComplement_append hsigns hstart hfound hp.orderly hwithin.depth] at hread
    split at hread
    · exact absurd hread (by simp)
    next hbound =>
    obtain ⟨rfl, rfl⟩ := Prod.mk.inj (Except.ok.inj hread)
    exact ⟨signs ++ front, .signed signs.length p, by simp, .signed hsigns hp,
      ⟨hwithin.nesting, Nat.not_lt.mp hbound⟩, rfl⟩
  complete := by
    intro front p rest hfront hwithin hrest
    cases hfront with
    | @signed signs tokens p hsigns hp =>
      have hdepth : p.depth + signs.length % 2 ≤ maxDepth := hwithin.depth
      have hinner : p.Within nesting := ⟨hwithin.nesting, by omega⟩
      have hread := h.complete tokens p rest hp hinner (hrest.mono (Nat.le_succ 4))
      have htokens : ∀ token ∈ (tokens ++ rest).head?, token.kind ≠ .complement := by
        obtain ⟨first, more, rfl, -, hfirst⟩ := hp.starts
        intro token htoken
        obtain rfl : first = token := by simpa using htoken
        exact hfirst rfl
      rw [List.append_assoc, readComplement_append hsigns htokens hread hp.orderly hinner.depth,
        if_neg (Nat.not_lt.mpr hdepth)]

/-! ### Chains -/

theorem chain_of_joint?_eq_none {limit deepest : Nat} {first : Parsed}
    (h : op.joint? rest = none) :
    chain op reader limit first deepest rest = .ok (first, rest) := by
  cases limit with
  | zero => rfl
  | succ limit =>
    rw [chain, h]
    rfl

/-- Where an operator comes next, it is written in front of the rest. -/
theorem exists_sign_of_joint? (h : op.joint? tokens = some (token, rest)) :
    ∃ sign, tokens = sign ++ rest ∧ sign.map Token.kind = op.kinds := by
  cases tokens with
  | nil => exact absurd h (by simp [Operator.joint?])
  | cons first more =>
    rw [Operator.joint?] at h
    split at h
    · next hcontinues =>
      obtain ⟨rfl, rfl⟩ := Prod.mk.inj (Option.some.inj h)
      cases op with
      | juxtaposition => exact ⟨[], rfl, rfl⟩
      | union =>
        exact ⟨[first], rfl, by simpa [Operator.continuesAt, Operator.kinds] using hcontinues⟩
      | difference =>
        exact ⟨[first], rfl, by simpa [Operator.continuesAt, Operator.kinds] using hcontinues⟩
      | intersection =>
        exact ⟨[first], rfl, by simpa [Operator.continuesAt, Operator.kinds] using hcontinues⟩
    · exact absurd h (by simp)

/-- One more link of a chain, once its right operand has been read. -/
theorem chain_link (hjoint : op.joint? tokens = some (token, front))
    (hread : reader front = .ok (q.parsed, rest)) :
    chain op reader (limit + 1) p.parsed (p.depth - p.shared op) tokens =
      if (Phrase.join op p q).depth > maxDepth then .error ⟨some token.offset, .tooDeep⟩
      else chain op reader limit (Phrase.join op p q).parsed
        ((Phrase.join op p q).depth - (Phrase.join op p q).shared op) rest := by
  rw [Phrase.depth_sub_shared_join, chain, hjoint]
  simp only [hread, ok_bind]
  rfl

/-- A chain goes on with links of the grammar. -/
theorem Recognizes.chain_sound (h : Recognizes reader op.tighter nesting)
    (hfront : Derives (.chain op) front p) (hwithin : p.Within nesting)
    (hread : chain op reader limit p.parsed (p.depth - p.shared op) tokens = .ok (parsed, rest)) :
    ∃ more q, tokens = more ++ rest ∧ Derives (.chain op) (front ++ more) q ∧
      q.Within nesting ∧ parsed = q.parsed := by
  induction limit generalizing front p tokens with
  | zero =>
    obtain ⟨rfl, rfl⟩ := Prod.mk.inj (Except.ok.inj hread)
    exact ⟨[], p, rfl, by rwa [List.append_nil], hwithin, rfl⟩
  | succ limit ih =>
    cases hjoint : op.joint? tokens with
    | none =>
      rw [chain_of_joint?_eq_none hjoint] at hread
      obtain ⟨rfl, rfl⟩ := Prod.mk.inj (Except.ok.inj hread)
      exact ⟨[], p, rfl, by rwa [List.append_nil], hwithin, rfl⟩
    | some found =>
      obtain ⟨token, start⟩ := found
      have hbind := hread
      rw [chain, hjoint] at hbind
      obtain ⟨⟨next, after⟩, hnext, -⟩ := bind_eq_ok.mp hbind
      obtain ⟨right, q, rfl, hq, hqwithin, rfl⟩ := h.sound _ _ _ hnext
      obtain ⟨sign, rfl, hsign⟩ := exists_sign_of_joint? hjoint
      rw [chain_link hjoint hnext] at hread
      split at hread
      · exact absurd hread (by simp)
      next hbound =>
      have hjoined : (Phrase.join op p q).Within nesting :=
        ⟨Nat.max_le.mpr ⟨hwithin.nesting, hqwithin.nesting⟩, Nat.not_lt.mp hbound⟩
      obtain ⟨more, r, rfl, hr, hrwithin, rfl⟩ := ih (.link hfront hsign hq) hjoined hread
      refine ⟨sign ++ right ++ more, r, by simp, ?_, hrwithin, rfl⟩
      simpa using hr

/-- Reading a chain comes to the end of any chain of the grammar, if what follows belongs to
none of its operands, and goes on from there. -/
theorem Recognizes.chain_complete (h : Recognizes reader op.tighter nesting)
    (hfront : Derives (.chain op) front p) (hwithin : p.Within nesting)
    (hrest : Stops (op.level + 1) rest) :
    ∃ limit ≥ rest.length, readChain op reader (front ++ rest) =
      chain op reader limit p.parsed (p.depth - p.shared op) rest := by
  generalize hchain : Nonterminal.chain op = nonterminal at hfront
  induction hfront generalizing rest with
  | leaf => exact absurd hchain (by simp)
  | parens => exact absurd hchain (by simp)
  | signed => exact absurd hchain (by simp)
  | @first o front p hp =>
    obtain rfl := Nonterminal.chain.inj hchain
    have hread := h.complete front p rest hp hwithin (op.level_tighter.symm ▸ hrest)
    refine ⟨rest.length, Nat.le_refl _, ?_⟩
    rw [readChain, hread, hp.shared_eq_zero]
    rfl
  | @link o left sign right p q hleft hsign hright ih =>
    obtain rfl := Nonterminal.chain.inj hchain
    have hdepth : (Phrase.join op p q).depth ≤ maxDepth := hwithin.depth
    have hnesting : max p.nesting q.nesting ≤ nesting := hwithin.nesting
    have hshared := p.shared_le op
    have hp : p.Within nesting := ⟨by omega, by rw [Phrase.depth] at hdepth; omega⟩
    have hq : q.Within nesting := ⟨by omega, by rw [Phrase.depth] at hdepth; omega⟩
    have hbegin := hright.startsOperand
    have hstops : Stops (op.level + 1) (sign ++ (right ++ rest)) := stops_sign hsign hbegin
    obtain ⟨limit, hlimit, hread⟩ := ih hp hstops rfl
    have hnext := h.complete right q rest hright hq (op.level_tighter.symm ▸ hrest)
    obtain ⟨token, hjoint⟩ :
        ∃ token, op.joint? (sign ++ (right ++ rest)) = some (token, right ++ rest) :=
      joint?_sign hsign hbegin
    -- One of the places left to the chain is spent on this operator.
    have hspent : rest.length + 1 ≤ limit := by
      obtain ⟨first, right, rfl, -⟩ := hbegin
      simp only [List.length_append, List.length_cons] at hlimit
      omega
    obtain ⟨limit, rfl⟩ := Nat.exists_eq_add_of_le' (Nat.le_trans (by omega) hspent : 1 ≤ limit)
    refine ⟨limit, Nat.le_of_succ_le_succ hspent, ?_⟩
    rw [List.append_assoc, List.append_assoc, hread, chain_link hjoint hnext,
      if_neg (Nat.not_lt.mpr hdepth)]

/-- A chain is recognized if its operands are. -/
theorem Recognizes.chain (h : Recognizes reader op.tighter nesting) :
    Recognizes (readChain op reader) (.chain op) nesting where
  sound := by
    intro tokens parsed rest hread
    obtain ⟨⟨found, after⟩, hfound, hresult⟩ := bind_eq_ok.mp hread
    obtain ⟨front, p, rfl, hp, hwithin, rfl⟩ := h.sound _ _ _ hfound
    have hchain : Expression.chain op reader after.length p.parsed (p.depth - p.shared op) after =
        .ok (parsed, rest) := by
      rw [hp.shared_eq_zero]
      exact hresult
    obtain ⟨more, q, rfl, hq, hqwithin, rfl⟩ := h.chain_sound (.first hp) hwithin hchain
    exact ⟨front ++ more, q, by simp, hq, hqwithin, rfl⟩
  complete := by
    intro front p rest hfront hwithin hrest
    obtain ⟨limit, -, hread⟩ :=
      h.chain_complete hfront hwithin (hrest.mono (Nat.le_succ op.level))
    rw [hread, chain_of_joint?_eq_none (hrest op (Nat.le_refl op.level))]

/-! ## Whole expressions -/

/-- All levels together are recognized if operands are. -/
theorem recognizes_readLevels (h : Recognizes (readOperand inner) .operand nesting) :
    Recognizes (readLevels inner) (.chain .union) nesting :=
  have hintersection : Recognizes (readChain .intersection _) (.chain .intersection) nesting :=
    Recognizes.chain h.complement
  have hdifference : Recognizes (readChain .difference _) (.chain .difference) nesting :=
    Recognizes.chain hintersection
  have hjuxtaposition : Recognizes (readChain .juxtaposition _) (.chain .juxtaposition) nesting :=
    Recognizes.chain hdifference
  Recognizes.chain hjuxtaposition

theorem recognizes_readNested (nesting : Nat) :
    Recognizes (readNested nesting) (.chain .union) nesting := by
  induction nesting with
  | zero => exact recognizes_readLevels (Recognizes.operand (fun _ => rfl) nofun)
  | succ nesting ih =>
    have hnone : nesting + 1 = 0 → some (readNested nesting) = none := by omega
    apply recognizes_readLevels
    apply Recognizes.operand hnone
    intro n hn
    obtain rfl := Nat.succ.inj hn
    exact ⟨_, rfl, ih⟩

/-- Tokens are read as what they stand for if they have a phrase within the limits, or if
there are none. -/
theorem readTokens_eq_ok_iff {e : Expression} :
    readTokens tokens = .ok e ↔
      tokens = [] ∧ e = nothing ∨
        ∃ p, Derives (.chain .union) tokens p ∧ p.nesting ≤ maxDepth ∧ p.depth ≤ maxDepth ∧
          p.value = e := by
  have hrecognizes := recognizes_readNested maxDepth
  rw [readTokens]
  constructor
  · intro h
    split at h
    · next hempty => exact Or.inl ⟨List.isEmpty_iff.mp hempty, (Except.ok.inj h).symm⟩
    · obtain ⟨⟨found, after⟩, hfound, hresult⟩ := bind_eq_ok.mp h
      obtain ⟨front, p, rfl, hp, hwithin, rfl⟩ := hrecognizes.sound _ _ _ hfound
      dsimp only at hresult
      split at hresult
      · refine Or.inr ⟨p, ?_, hwithin.nesting, hwithin.depth, Except.ok.inj hresult⟩
        rwa [List.append_nil]
      · exact absurd hresult (by simp)
  · intro h
    rcases h with ⟨rfl, rfl⟩ | ⟨p, hp, hnesting, hdepth, rfl⟩
    · rfl
    · obtain ⟨first, more, rfl, -⟩ := hp.startsOperand
      have hread := hrecognizes.complete _ p [] hp ⟨hnesting, hdepth⟩ stops_nil
      rw [List.append_nil] at hread
      rw [hread]
      rfl

/-- A text is read exactly if it has no tokens, or if its tokens have a phrase in the grammar
with no more than `maxDepth` parentheses open at once and no more than `maxDepth` levels.
What is read is `nothing`, or what the phrase stands for. -/
theorem parse_eq_ok_iff {text : String} {e : Expression} :
    Expression.parse text = .ok e ↔
      ∃ tokens, Token.scan text.toList = .ok tokens ∧
        (tokens = [] ∧ e = nothing ∨
          ∃ p, Derives (.chain .union) tokens p ∧ p.nesting ≤ maxDepth ∧ p.depth ≤ maxDepth ∧
            p.value = e) := by
  rw [Expression.parse]
  cases hscan : Token.scan text.toList with
  | error start => simp
  | ok tokens =>
    simp only [mapError_eq_ok, readTokens_eq_ok_iff, Except.ok.injEq, exists_eq_left']

end Expression

end PathSets
