import Mathlib.Data.List.DropRight
import PathSets.Proofs.CallText

/-!
# Reading predicates back

The written form of a well-formed predicate is read back as the same predicate
(`Predicate.read_write`), as long as its tree is no deeper than `maxDepth`.

A reader for operands that bind at least as tight as a level is correct if it reads
back every such operand that is followed by a text which cannot continue it
(`Reads`, `Stops`).  Each reader is correct at its own level if the one below it is:

* `Reads.primary`: calls, and predicates in parentheses.
* `Reads.negated`: the `not`s before a primary.
* `Reads.chain`: operands joined by a connective.  `Reads.spine` follows the left
  operands of one connective down to the first that binds tighter, which is where
  the reader starts.

Parentheses only stand around operands, and each operand is less deep than the
predicate it belongs to.  So the bound on the depth also bounds how many are open.
-/

namespace PathSets

/-! ## Well-formed predicates -/

namespace Predicate

/-- A predicate whose calls are well formed. -/
def WellFormed : Predicate → Prop
  | call c => c.WellFormed
  | not operand => operand.WellFormed
  | binary _ left right => left.WellFormed ∧ right.WellFormed

/-- The written form as an operand where everything looser than `level` needs
parentheses. -/
def writeAt (p : Predicate) (level : Nat) : List Char :=
  enclose (p.level < level) p.write

variable {p : Predicate} {level : Nat}

theorem writeAt_of_le (h : level ≤ p.level) : p.writeAt level = p.write := by
  rw [writeAt, decide_eq_false (Nat.not_lt.mpr h)]
  rfl

theorem writeAt_of_lt (h : p.level < level) : p.writeAt level = '(' :: p.write ++ [')'] := by
  rw [writeAt, decide_eq_true h]
  rfl

theorem write_not (operand : Predicate) :
    (not operand).write = "not ".toList ++ operand.writeAt 3 := rfl

theorem write_binary (op : Connective) (left right : Predicate) :
    (binary op left right).write =
      left.writeAt op.level ++ op.write ++ right.writeAt (op.level + 1) := by
  rw [write, writeAt, writeAt, decide_eq_decide.mpr Nat.lt_succ_iff]

end Predicate

/-- Connectives differ in how tightly they bind. -/
theorem Connective.level_injective {op op' : Connective} (h : op.level = op'.level) :
    op = op' := by
  cases op <;> cases op' <;> first | rfl | exact absurd h (by decide)

theorem Connective.level_le (op : Connective) : op.level ≤ 2 := by
  cases op <;> decide

/-! ## What begins and ends an operand -/

/-- A text that begins with an operand, and so with no blank, no closing parenthesis
and no connective. -/
structure BeginsOperand (text : List Char) : Prop where
  ne_nil : text ≠ []
  blank : StopsBefore isBlank text
  close : StopsBefore (· == ')') text
  and : keyword? "and" text = none
  or : keyword? "or" text = none

section BeginsOperand

variable {text rest : List Char}

theorem beginsOperand_open : BeginsOperand ('(' :: rest) where
  ne_nil := by simp
  blank := stopsBefore_cons (by decide)
  close := stopsBefore_cons (by decide)
  and := keyword?_cons_eq_none (by decide) (by decide) (by decide)
  or := keyword?_cons_eq_none (by decide) (by decide) (by decide)

theorem beginsOperand_not : BeginsOperand ("not ".toList ++ rest) where
  ne_nil := by simp
  blank := stopsBefore_cons (by decide)
  close := stopsBefore_cons (by decide)
  and := keyword?_cons_eq_none (by decide) (by decide) (by decide)
  or := keyword?_cons_eq_none (by decide) (by decide) (by decide)

/-- A written call is a name and something that no name goes on with. -/
theorem Call.exists_write_eq (c : Call) :
    ∃ more, c.write = c.name.toList ++ more ∧
      ∀ rest, EndsCall rest → StopsBefore isNameChar (more ++ rest) := by
  obtain ⟨style, name, args⟩ := c
  have hbare : ∀ rest, EndsCall rest → StopsBefore isNameChar ([] ++ rest) :=
    fun rest hrest => hrest.stopsBefore (by decide) (by decide)
  cases style with
  | bare => exact ⟨[], by simp [write], hbare⟩
  | colon =>
    cases args with
    | nil => exact ⟨[], by simp [write], hbare⟩
    | cons a args =>
      refine ⟨':' :: Argument.writeAll [','] (a :: args), by simp [write], fun rest _ => ?_⟩
      exact stopsBefore_cons (by decide)
  | paren =>
    refine ⟨'(' :: Argument.writeAll [',', ' '] args ++ [')'], ?_, fun rest _ => ?_⟩
    · simp [write]
    · exact stopsBefore_cons (by decide)

/-- No reserved word stands where a call does. -/
theorem Call.keyword?_write {c : Call} {word : String} (hc : c.WellFormed)
    (hword : word ∈ reservedWords) (hrest : EndsCall rest) :
    keyword? word (c.write ++ rest) = none := by
  obtain ⟨more, hmore, hstop⟩ := c.exists_write_eq
  have hne : c.name.toList ≠ word.toList := by
    intro heq
    have hreserved : isReservedWord c.name.toList = true := by
      rw [heq, isReservedWord, List.any_eq_true]
      exact ⟨word, hword, beq_self_eq_true _⟩
    rw [hc.notReserved] at hreserved
    exact absurd hreserved (by decide)
  have hchars : ∀ d ∈ word.toList, isNameChar d = true := by
    have hall : reservedWords.all (fun reserved => reserved.toList.all isNameChar) = true := by
      decide
    exact List.all_eq_true.mp (List.all_eq_true.mp hall word hword)
  rw [hmore, List.append_assoc]
  exact keyword?_eq_none hc.name hne hchars (hstop rest hrest)

/-- A call begins with none of the characters that cannot begin a name. -/
theorem Call.stopsBefore_write {c : Call} (hc : c.WellFormed) {fits : Char → Bool}
    (hfits : ∀ d, isNameChar d = true → fits d = false) :
    StopsBefore fits (c.write ++ rest) := by
  obtain ⟨more, hmore, -⟩ := c.exists_write_eq
  rw [hmore, List.append_assoc]
  exact stopsBefore_of_isIdentifier hc.name hfits

theorem Call.write_ne_nil {c : Call} (hc : c.WellFormed) : c.write ≠ [] := by
  obtain ⟨more, hmore, -⟩ := c.exists_write_eq
  rw [hmore]
  simp [ne_nil_of_isIdentifier hc.name]

theorem beginsOperand_call {c : Call} (hc : c.WellFormed) (hrest : EndsCall rest) :
    BeginsOperand (c.write ++ rest) where
  ne_nil := by simp [Call.write_ne_nil hc]
  blank := Call.stopsBefore_write hc fun _ => isBlank_eq_false_of_isNameChar
  close := Call.stopsBefore_write hc fun _ hd => by simpa using ne_of_isNameChar hd (by decide)
  and := Call.keyword?_write hc (by decide) hrest
  or := Call.keyword?_write hc (by decide) hrest

theorem Connective.endsCall_write (op : Connective) : EndsCall (op.write ++ rest) := by
  cases op <;> exact endsCall_blank _

theorem Predicate.beginsOperand_writeAt {p : Predicate} (hp : p.WellFormed) (level : Nat)
    (hrest : EndsCall rest) : BeginsOperand (p.writeAt level ++ rest) := by
  induction p generalizing level rest with
  | call c =>
    rcases Nat.lt_or_ge (call c).level level with hlevel | hlevel
    · rw [writeAt_of_lt hlevel]
      exact beginsOperand_open
    · rw [writeAt_of_le hlevel]
      exact beginsOperand_call hp hrest
  | not operand _ =>
    rcases Nat.lt_or_ge (not operand).level level with hlevel | hlevel
    · rw [writeAt_of_lt hlevel]
      exact beginsOperand_open
    · rw [writeAt_of_le hlevel, write_not, List.append_assoc]
      exact beginsOperand_not
  | binary op left right ihLeft _ =>
    rcases Nat.lt_or_ge (binary op left right).level level with hlevel | hlevel
    · rw [writeAt_of_lt hlevel]
      exact beginsOperand_open
    · rw [writeAt_of_le hlevel, write_binary, List.append_assoc, List.append_assoc]
      exact ihLeft hp.1 op.level op.endsCall_write

end BeginsOperand

namespace Predicate

/-- Only a call binds tighter than `not` and every connective. -/
theorem exists_call_of_level {p : Predicate} (h : 4 ≤ p.level) : ∃ c, p = call c := by
  cases p with
  | call c => exact ⟨c, rfl⟩
  | not operand => exact absurd h (show ¬ 4 ≤ 3 by omega)
  | binary op left right =>
    have hle := op.level_le
    exact absurd h (show ¬ 4 ≤ op.level by omega)

/-- What may follow an operand of a level: the end of a call, where no connective that
binds as tight or tighter goes on. -/
structure Stops (level : Nat) (rest : List Char) : Prop where
  ends : EndsCall rest
  joint : ∀ op : Connective, level ≤ op.level → op.joint? rest = none

section Stops

variable {level : Nat} {rest : List Char} {op : Connective}

theorem Stops.mono {level' : Nat} (h : Stops level rest) (hle : level ≤ level') :
    Stops level' rest where
  ends := h.ends
  joint op hop := h.joint op (Nat.le_trans hle hop)

theorem stops_nil : Stops level [] where
  ends := endsCall_nil
  joint op _ := by cases op <;> rfl

theorem stops_close : Stops level (')' :: rest) where
  ends := endsCall_close rest
  joint op _ := by
    cases op with
    | or => exact keyword?_cons_eq_none (by decide) (by decide) (by decide)
    | and => exact keyword?_cons_eq_none (by decide) (by decide) (by decide)
    | juxtaposition =>
      have hskip : skipBlanks (')' :: rest) = ')' :: rest :=
        skipBlanks_of_stopsBefore (stopsBefore_cons (by decide))
      simp [Connective.joint?, hskip]

theorem skipBlanks_blank_cons (h : StopsBefore isBlank rest) : skipBlanks (' ' :: rest) = rest :=
  skipBlanks_of_stopsBefore h

theorem keyword?_blank_cons (word : String) :
    keyword? word (' ' :: rest) = keyword? word rest := rfl

/-- A connective is found before an operand, and its right operand is what comes next. -/
theorem joint?_write (op : Connective) (h : BeginsOperand rest) :
    ∃ start, op.joint? (op.write ++ rest) = some start ∧ skipBlanks start = rest := by
  have hskip := skipBlanks_blank_cons h.blank
  cases op with
  | or => exact ⟨' ' :: rest, rfl, hskip⟩
  | and => exact ⟨' ' :: rest, rfl, hskip⟩
  | juxtaposition =>
    have hclose : rest.head? ≠ some ')' := fun hhead => absurd (h.close ')' hhead) (by decide)
    refine ⟨rest, ?_, skipBlanks_of_stopsBefore h.blank⟩
    simp [Connective.joint?, Connective.write, hskip, h.ne_nil, hclose, h.and, h.or]

/-- No connective that binds tighter goes on where one is written. -/
theorem stops_write : Stops (op.level + 1) (op.write ++ rest) where
  ends := op.endsCall_write
  joint op' hlevel := by
    have hor : keyword? "or" (Connective.or.write ++ rest) = some (' ' :: rest) := rfl
    have hand : keyword? "and" (Connective.and.write ++ rest) = some (' ' :: rest) := rfl
    have hskip : ∀ op : Connective, op ≠ .juxtaposition → ∀ word : String,
        keyword? word (skipBlanks (op.write ++ rest)) = keyword? word (op.write ++ rest) := by
      intro op hop word
      cases op with
      | juxtaposition => exact absurd rfl hop
      | or => rfl
      | and => rfl
    cases op with
    | juxtaposition => cases op' <;> exact absurd hlevel (by decide)
    | and =>
      cases op' with
      | juxtaposition => simp [Connective.joint?, hskip, hand]
      | or => exact absurd hlevel (by decide)
      | and => exact absurd hlevel (by decide)
    | or =>
      cases op' with
      | juxtaposition => simp [Connective.joint?, hskip, hor]
      | or => exact absurd hlevel (by decide)
      | and =>
        have hand : keyword? "and" ('o' :: 'r' :: ' ' :: rest) = none :=
          keyword?_cons_eq_none (by decide) (by decide) (by decide)
        exact (keyword?_blank_cons "and").trans hand

end Stops

/-! ## Readers -/

variable {operand : List Char → Reading PredicateFault (Parsed × List Char)}
  {op : Connective} {level nesting : Nat} {text rest : List Char}

/-- A reader that reads back the operands of a level, up to a depth.  An operand in
parentheses has to be less deep. -/
def Reads (operand : List Char → Reading PredicateFault (Parsed × List Char))
    (level nesting : Nat) : Prop :=
  ∀ (p : Predicate) (text rest : List Char), p.WellFormed → p.depth ≤ nesting →
    (p.level < level → p.depth < nesting) → Stops level rest →
    skipBlanks text = p.writeAt level ++ rest → operand text = .ok (⟨p, p.depth⟩, rest)

theorem skipBlanks_skipBlanks (text : List Char) :
    skipBlanks (skipBlanks text) = skipBlanks text :=
  List.dropWhile_idempotent isBlank text

theorem keyword?_skipBlanks (word : String) (text : List Char) :
    keyword? word (skipBlanks text) = keyword? word text := by
  rw [keyword?, keyword?, skipBlanks_skipBlanks]

theorem length_skipBlanks_le (text : List Char) : (skipBlanks text).length ≤ text.length :=
  List.length_dropWhile_le isBlank text

/-- The reader of primaries reads calls back, and predicates in parentheses if the
reader inside them does. -/
theorem Reads.primary {inner : Option (List Char → Reading PredicateFault (Parsed × List Char))}
    (hinner : ∀ p : Predicate, p.WellFormed → p.depth < nesting → ∃ read, inner = some read ∧
      ∀ rest, read (p.write ++ ')' :: rest) = .ok (⟨p, p.depth⟩, ')' :: rest)) :
    Reads (readPrimary inner) 4 nesting := by
  intro p text rest hp _ hless hrest htext
  rcases Nat.lt_or_ge p.level 4 with hlevel | hlevel
  · obtain ⟨read, rfl, hread⟩ := hinner p hp (hless hlevel)
    have hclose : skipBlanks (')' :: rest) = ')' :: rest :=
      skipBlanks_of_stopsBefore (stopsBefore_cons (by decide))
    rw [writeAt_of_lt hlevel, List.append_assoc, List.cons_append, List.singleton_append] at htext
    simp only [readPrimary, htext, hread rest, ok_bind, hclose]
    rfl
  · obtain ⟨c, rfl⟩ := exists_call_of_level hlevel
    rw [writeAt_of_le hlevel, write] at htext
    have hopen : StopsBefore (· == '(') (c.write ++ rest) :=
      Call.stopsBefore_write hp fun _ hd => by simpa using ne_of_isNameChar hd (by decide)
    rw [readPrimary, htext]
    split
    · next after heq =>
      rw [heq] at hopen
      exact absurd (hopen '(' rfl) (by decide)
    · rw [Call.read_write hp hrest.ends]
      rfl

theorem countNots_of_eq_none {limit : Nat} (h : keyword? "not" text = none) :
    countNots limit text = (0, text) := by
  cases limit with
  | zero => rfl
  | succ limit => rw [countNots, h]

/-- Counting `not`s leaves the operand below them, which is a primary.  It stands in
parentheses only if there are `not`s or the whole needs them. -/
theorem countNots_writeAt {p : Predicate} {limit : Nat} (hp : p.WellFormed)
    (hrest : EndsCall rest) (hlimit : text.length ≤ limit)
    (htext : skipBlanks text = p.writeAt 3 ++ rest) :
    ∃ count base more, countNots limit text = (count, more) ∧ p = negate count base ∧
      base.WellFormed ∧ p.depth = base.depth + count ∧
      (base.level < 4 → p.level < 3 ∨ 0 < count) ∧ skipBlanks more = base.writeAt 4 ++ rest := by
  induction p generalizing text limit with
  | call c =>
    have hkeyword : keyword? "not" text = none := by
      rw [← keyword?_skipBlanks, htext]
      exact Call.keyword?_write hp (by decide) hrest
    refine ⟨0, call c, text, countNots_of_eq_none hkeyword, rfl, hp, rfl, ?_, htext⟩
    exact fun hlevel => absurd hlevel (show ¬ 4 < 4 by omega)
  | binary op left right _ _ =>
    have hle := op.level_le
    have hlevel : (binary op left right).level < 3 := show op.level < 3 by omega
    have hlevel' : (binary op left right).level < 4 := show op.level < 4 by omega
    rw [writeAt_of_lt hlevel] at htext
    have hkeyword : keyword? "not" text = none := by
      rw [← keyword?_skipBlanks, htext]
      exact keyword?_cons_eq_none (by decide) (by decide) (by decide)
    refine ⟨0, _, text, countNots_of_eq_none hkeyword, rfl, hp, rfl, fun _ => Or.inl hlevel, ?_⟩
    rw [writeAt_of_lt hlevel', htext]
  | not operand ih =>
    have hlevel : ¬ (not operand).level < 3 := show ¬ 3 < 3 by omega
    rw [writeAt_of_le (Nat.not_lt.mp hlevel), write_not] at htext
    have hkeyword : keyword? "not" text = some (' ' :: (operand.writeAt 3 ++ rest)) := by
      rw [← keyword?_skipBlanks, htext]
      rfl
    have hlength : (operand.writeAt 3 ++ rest).length + 4 ≤ limit := by
      refine Nat.le_trans ?_ (Nat.le_trans (length_skipBlanks_le text) hlimit)
      simp [htext]
    obtain ⟨limit, rfl⟩ := Nat.exists_eq_add_of_le' (Nat.le_trans (by omega) hlength : 1 ≤ limit)
    have hbegins := beginsOperand_writeAt (p := operand) hp 3 hrest
    have hlimit' : (' ' :: (operand.writeAt 3 ++ rest)).length ≤ limit := by
      rw [List.length_cons]
      omega
    obtain ⟨count, base, more, hcount, rfl, hbase, hdepth, -, hmore⟩ :=
      ih hp hlimit' (skipBlanks_blank_cons hbegins.blank)
    refine ⟨count + 1, base, more, ?_, rfl, hbase, ?_, fun _ => Or.inr (Nat.succ_pos count), hmore⟩
    · simp only [countNots, hkeyword, hcount]
    · rw [depth, hdepth, Nat.add_assoc]

/-- The reader of `not`s reads them back if its operand reads primaries back. -/
theorem Reads.negated (h : Reads operand 4 nesting) (hnesting : nesting ≤ maxDepth) :
    Reads (readNegated operand) 3 nesting := by
  intro p text rest hp hdepth hless hrest htext
  obtain ⟨count, base, more, hcount, rfl, hbase, hsum, henclosed, hmore⟩ :=
    countNots_writeAt hp hrest.ends (Nat.le_refl _) ((skipBlanks_skipBlanks text).trans htext)
  have hbaseDepth : base.level < 4 → base.depth < nesting := by
    intro hlevel
    rcases henclosed hlevel with hlooser | hcount
    · have := hless hlooser
      omega
    · omega
  have hread := h base more rest hbase (by omega) hbaseDepth (hrest.mono (Nat.le_succ 3)) hmore
  have hbound : ¬ base.depth + count > maxDepth := by omega
  simp only [readNegated, hcount, hread, ok_bind, if_neg hbound, hsum]
  rfl

/-! ## Chains -/

theorem chain_of_joint?_eq_none {limit : Nat} {first : Parsed} (h : op.joint? rest = none) :
    chain op operand limit first rest = .ok (first, rest) := by
  cases limit with
  | zero => rfl
  | succ limit =>
    rw [chain, h]
    rfl

/-- An operand that is no chain of the connective is read as the first one. -/
theorem Reads.start {p : Predicate} (h : Reads operand (op.level + 1) nesting)
    (hlevel : p.level ≠ op.level) (hp : p.WellFormed) (hdepth : p.depth ≤ nesting)
    (hless : p.level < op.level → p.depth < nesting) (hrest : Stops (op.level + 1) rest)
    (htext : skipBlanks text = p.writeAt op.level ++ rest) :
    readChain op operand text = chain op operand rest.length ⟨p, p.depth⟩ rest := by
  have hiff : p.level < op.level ↔ p.level < op.level + 1 := by omega
  rw [writeAt, decide_eq_decide.mpr hiff] at htext
  rw [readChain, h p text rest hp hdepth (fun hlt => hless (hiff.mpr hlt)) hrest htext]
  rfl

/-- One more link of a chain: the connective and its right operand. -/
theorem Reads.link {left right : Predicate} {limit : Nat}
    (h : Reads operand (op.level + 1) nesting) (hnesting : nesting ≤ maxDepth)
    (hright : right.WellFormed) (hdepth : (binary op left right).depth ≤ nesting)
    (hrest : Stops (op.level + 1) rest) :
    chain op operand (limit + 1) ⟨left, left.depth⟩
        (op.write ++ (right.writeAt (op.level + 1) ++ rest)) =
      chain op operand limit ⟨binary op left right, (binary op left right).depth⟩ rest := by
  have hsum : max left.depth right.depth + 1 ≤ nesting := hdepth
  obtain ⟨start, hjoint, hstart⟩ := joint?_write op (beginsOperand_writeAt hright _ hrest.ends)
  have hread : operand start = .ok (⟨right, right.depth⟩, rest) :=
    h right start rest hright (by omega) (fun _ => by omega) hrest hstart
  have hbound : ¬ max left.depth right.depth + 1 > maxDepth := by omega
  rw [chain, hjoint]
  simp only [hread, ok_bind, if_neg hbound]
  rfl

/-- Reading a chain comes to the whole of what binds at least as tight as its connective
and goes on from there. -/
theorem Reads.spine {p : Predicate} (h : Reads operand (op.level + 1) nesting)
    (hnesting : nesting ≤ maxDepth) (hp : p.WellFormed) (hdepth : p.depth ≤ nesting)
    (hless : p.level < op.level → p.depth < nesting) (hrest : Stops (op.level + 1) rest)
    (htext : skipBlanks text = p.writeAt op.level ++ rest) :
    ∃ limit ≥ rest.length,
      readChain op operand text = chain op operand limit ⟨p, p.depth⟩ rest := by
  induction p generalizing rest with
  | call c =>
    have hle := op.level_le
    have hlevel : (call c).level ≠ op.level := show 4 ≠ op.level by omega
    exact ⟨_, Nat.le_refl _, h.start hlevel hp hdepth hless hrest htext⟩
  | not inner _ =>
    have hle := op.level_le
    have hlevel : (not inner).level ≠ op.level := show 3 ≠ op.level by omega
    exact ⟨_, Nat.le_refl _, h.start hlevel hp hdepth hless hrest htext⟩
  | binary op' left right ih _ =>
    by_cases heq : op'.level = op.level
    swap
    · exact ⟨_, Nat.le_refl _, h.start heq hp hdepth hless hrest htext⟩
    obtain rfl : op' = op := Connective.level_injective heq
    have hsum : max left.depth right.depth + 1 ≤ nesting := hdepth
    have hown : op'.level ≤ (binary op' left right).level := Nat.le_refl op'.level
    rw [writeAt_of_le hown, write_binary, List.append_assoc, List.append_assoc] at htext
    obtain ⟨limit, hlimit, hleft⟩ :=
      ih hp.1 (by omega) (fun _ => by omega) stops_write htext
    -- One of the places left to the chain is spent on this connective.
    have hspent : rest.length + 1 ≤ limit := by
      refine Nat.le_trans ?_ hlimit
      have hop : 1 ≤ op'.write.length := by cases op' <;> decide
      simp only [List.length_append]
      omega
    obtain ⟨limit, rfl⟩ := Nat.exists_eq_add_of_le' (Nat.le_trans (by omega) hspent : 1 ≤ limit)
    refine ⟨limit, Nat.le_of_succ_le_succ hspent, ?_⟩
    rw [hleft, h.link hnesting hp.2 hdepth hrest]

/-- The reader of a chain reads it back if its operand reads operands back. -/
theorem Reads.chain (h : Reads operand (op.level + 1) nesting) (hnesting : nesting ≤ maxDepth) :
    Reads (readChain op operand) op.level nesting := by
  intro p text rest hp hdepth hless hrest htext
  obtain ⟨limit, -, hspine⟩ :=
    h.spine hnesting hp hdepth hless (hrest.mono (Nat.le_succ op.level)) htext
  rw [hspine, chain_of_joint?_eq_none (hrest.joint op (Nat.le_refl op.level))]

/-! ## Whole predicates -/

/-- All levels together read predicates back if what is in parentheses is read back. -/
theorem reads_readLevels {inner : Option (List Char → Reading PredicateFault (Parsed × List Char))}
    (hnesting : nesting ≤ maxDepth)
    (hinner : ∀ p : Predicate, p.WellFormed → p.depth < nesting → ∃ read, inner = some read ∧
      ∀ rest, read (p.write ++ ')' :: rest) = .ok (⟨p, p.depth⟩, ')' :: rest)) :
    Reads (readLevels inner) 0 nesting :=
  have hnegated : Reads (readNegated (readPrimary inner)) 3 nesting :=
    (Reads.primary hinner).negated hnesting
  have hjuxtaposition : Reads (readChain .juxtaposition _) 2 nesting :=
    hnegated.chain hnesting
  have hand : Reads (readChain .and _) 1 nesting := hjuxtaposition.chain hnesting
  hand.chain hnesting

theorem reads_readNested (hnesting : nesting ≤ maxDepth) :
    Reads (readNested nesting) 0 nesting := by
  induction nesting with
  | zero => exact reads_readLevels hnesting fun p _ hp => absurd hp (Nat.not_lt_zero p.depth)
  | succ nesting ih =>
    refine reads_readLevels hnesting fun p hp hdepth => ⟨_, rfl, fun rest => ?_⟩
    have hwrite : p.writeAt 0 = p.write := writeAt_of_le (Nat.zero_le p.level)
    have hbegins := beginsOperand_writeAt hp 0 (endsCall_close rest)
    refine ih (Nat.le_of_succ_le hnesting) p _ _ hp (Nat.le_of_lt_succ hdepth)
      (fun hlevel => absurd hlevel (Nat.not_lt_zero p.level)) stops_close ?_
    rw [hwrite] at hbegins ⊢
    exact skipBlanks_of_stopsBefore hbegins.blank

/-- Reading a written predicate gives the predicate. -/
theorem read_write {p : Predicate} (hp : p.WellFormed) (hdepth : p.depth ≤ maxDepth) :
    read p.write = .ok p := by
  have hwrite : p.writeAt 0 ++ [] = p.write := by
    rw [writeAt_of_le (Nat.zero_le p.level), List.append_nil]
  have hbegins : BeginsOperand p.write := hwrite ▸ beginsOperand_writeAt hp 0 endsCall_nil
  have hskip : skipBlanks p.write = p.write := skipBlanks_of_stopsBefore hbegins.blank
  have hread : readNested maxDepth p.write = .ok (⟨p, p.depth⟩, []) :=
    reads_readNested (Nat.le_refl maxDepth) p _ [] hp hdepth
      (fun hlevel => absurd hlevel (Nat.not_lt_zero p.level)) stops_nil (hskip.trans hwrite.symm)
  rw [read, hskip, List.isEmpty_eq_false_iff.mpr hbegins.ne_nil, hread]
  rfl

end Predicate

end PathSets
