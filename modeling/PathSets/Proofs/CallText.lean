import PathSets.Proofs.Outcome
import PathSets.Proofs.Words

/-!
# Reading calls back

The written form of a call is read back as the same call, whatever follows it, as
long as that is nothing, a blank or a closing parenthesis (`EndsCall`).  Values,
arguments and argument lists come first, each with the texts that may follow it.

A call is `WellFormed` if its names are names and its arguments suit the way it is
written.  Only such calls come out of the reader.
-/

namespace PathSets

/-! ## Well-formed calls -/

/-- A call that can be written and read back: its name is an identifier and no
reserved word, and its arguments suit its style. -/
structure Call.WellFormed (c : Call) : Prop where
  name : isIdentifier c.name.toList = true
  notReserved : isReservedWord c.name.toList = false
  bare : c.style = .bare → c.args = []
  colon : c.style = .colon → c.args ≠ [] ∧ ∀ a ∈ c.args, a.keyword = none
  paren : c.style = .paren → ∀ a ∈ c.args, ∀ k ∈ a.keyword, isIdentifier k.toList = true

/-- What may follow a call: nothing, a blank or a closing parenthesis. -/
def EndsCall (rest : List Char) : Prop :=
  ∀ c ∈ rest.head?, c = ' ' ∨ c = ')'

theorem endsCall_nil : EndsCall [] := by simp [EndsCall]

theorem endsCall_blank (rest : List Char) : EndsCall (' ' :: rest) := by simp [EndsCall]

theorem endsCall_close (rest : List Char) : EndsCall (')' :: rest) := by simp [EndsCall]

theorem EndsCall.stopsBefore {rest : List Char} {fits : Char → Bool} (h : EndsCall rest)
    (hblank : fits ' ' = false) (hclose : fits ')' = false) : StopsBefore fits rest := by
  intro c hc
  rcases h c hc with rfl | rfl
  · exact hblank
  · exact hclose

/-! ## Values -/

namespace Value

variable {rest text : List Char} {c : Char}

theorem readQuoted_escape (s rest : List Char) :
    readQuoted (escape s ++ '"' :: rest) = some (s, rest) := by
  induction s with
  | nil => simp [escape, readQuoted]
  | cons c s ih =>
    rw [escape]
    split
    · simp [readQuoted, ih]
    · next hc =>
      rw [not_or] at hc
      rw [List.cons_append, readQuoted]
      · simp [ih]
      · exact hc.1
      · exact fun _ _ h _ => hc.2 h
      · exact fun h _ => hc.2 h

theorem isDigit_of_mem_writeNat {n : Nat} : ∀ c ∈ writeNat n, c.isDigit = true :=
  fun _ hc => Nat.isDigit_of_mem_toDigits (by decide) (by decide) hc

theorem writeNat_ne_nil {n : Nat} : writeNat n ≠ [] :=
  Nat.toDigits_ne_nil

theorem ofDigits?_writeNat (n : Int64) (negative : Bool)
    (h : (if negative then -(n.toInt.natAbs : Int) else (n.toInt.natAbs : Int)) = n.toInt) :
    ofDigits? negative (writeNat n.toInt.natAbs) = some n := by
  have hne : (writeNat n.toInt.natAbs).isEmpty = false :=
    List.isEmpty_eq_false_iff.mpr writeNat_ne_nil
  have hbounds : Int64.minValue.toInt ≤ n.toInt ∧ n.toInt ≤ Int64.maxValue.toInt :=
    ⟨Int64.minValue_le_toInt n, Int64.toInt_le n⟩
  rw [ofDigits?, hne]
  simp only [Bool.false_eq_true, if_false, writeNat, Nat.ofDigitChars_ten_toDigits]
  rw [h, if_pos hbounds, Int64.ofInt_toInt]

theorem readNumber_writeNat (start : List Char) (n : Int64) (negative : Bool)
    (h : (if negative then -(n.toInt.natAbs : Int) else (n.toInt.natAbs : Int)) = n.toInt)
    (hrest : StopsBefore isNameChar rest) :
    readNumber start negative (writeNat n.toInt.natAbs ++ rest) = .ok (.number n, rest) := by
  have hdigit : StopsBefore Char.isDigit rest := by
    intro c hc
    rw [Bool.eq_false_iff]
    intro hd
    exact absurd (isNameChar_of_isDigit hd) (by simp [hrest c hc])
  rw [readNumber, takeWhile_run isDigit_of_mem_writeNat hdigit,
    dropWhile_run isDigit_of_mem_writeNat hdigit, ofDigits?_writeNat n negative h]

/-- A value that begins with a word is that word, or the truth value it names. -/
theorem read_word (h : isIdentifier text = true) (hrest : StopsBefore isNameChar rest) :
    read (text ++ rest) =
      if text = "true".toList then .ok (.truth true, rest)
      else if text = "false".toList then .ok (.truth false, rest)
      else .ok (.word (String.ofList text), rest) := by
  have hword := leadingWord?_append h hrest
  obtain ⟨c, more, rfl, hc, hmore⟩ := isIdentifier_iff.mp h
  have hne : ∀ d : Char, isNameChar d = false → c ≠ d := fun d =>
    ne_of_isNameChar (isNameChar_of_isNameStart hc)
  rw [List.cons_append] at hword ⊢
  rw [read]
  · simp only [isDigit_eq_false_of_isNameStart hc, Bool.false_eq_true, if_false, hword]
  · exact hne '"' (by decide)
  · exact hne '-' (by decide)

theorem read_digit (hc : c.isDigit = true) :
    read (c :: rest) = readNumber (c :: rest) false (c :: rest) := by
  have hne : ∀ d : Char, isNameChar d = false → c ≠ d := fun d =>
    ne_of_isNameChar (isNameChar_of_isDigit hc)
  rw [read]
  · simp only [hc, if_true]
  · exact hne '"' (by decide)
  · exact hne '-' (by decide)

/-- Reading a written value gives the value, if no name character follows. -/
theorem read_write (v : Value) (hrest : StopsBefore isNameChar rest) :
    read (v.write ++ rest) = .ok (v, rest) := by
  cases v with
  | truth b => cases b <;> exact read_word (by decide) hrest
  | number n =>
    rw [write, writeInt]
    split
    · next hneg =>
      have hvalue : -(n.toInt.natAbs : Int) = n.toInt := by omega
      exact readNumber_writeNat _ n true hvalue hrest
    · next hneg =>
      have hvalue : (n.toInt.natAbs : Int) = n.toInt := by omega
      have hdigits :=
        readNumber_writeNat (writeNat n.toInt.natAbs ++ rest) n false hvalue hrest
      obtain ⟨c, more, hc⟩ := List.exists_cons_of_ne_nil (writeNat_ne_nil (n := n.toInt.natAbs))
      have hmem : c ∈ writeNat n.toInt.natAbs := by simp [hc]
      rw [hc, List.cons_append] at hdigits ⊢
      rw [read_digit (isDigit_of_mem_writeNat c hmem), hdigits]
  | word s =>
    rw [write]
    split
    · next hs =>
      simp only [Bool.and_eq_true, Bool.not_eq_true'] at hs
      have hne : s.toList ≠ "true".toList ∧ s.toList ≠ "false".toList := by
        constructor <;> intro heq <;> rw [heq] at hs <;> exact absurd hs.2 (by decide)
      rw [read_word hs.1 hrest, if_neg hne.1, if_neg hne.2, String.ofList_toList]
    · have hquoted := readQuoted_escape s.toList rest
      simp only [List.cons_append, List.append_assoc, List.nil_append, read, hquoted,
        String.ofList_toList]

end Value

/-! ## Arguments -/

namespace Argument

variable {rest : List Char} {a : Argument} {args : List Argument}

theorem write_positional (value : Value) : write ⟨none, value⟩ = value.write := rfl

theorem write_keyword (keyword : String) (value : Value) :
    write ⟨some keyword, value⟩ = keyword.toList ++ '=' :: value.write := rfl

theorem readPlain_write (h : a.keyword = none) (hrest : StopsBefore isNameChar rest) :
    readPlain (a.write ++ rest) = .ok (a, rest) := by
  obtain ⟨keyword, value⟩ := a
  obtain rfl : keyword = none := h
  simp only [readPlain, write, Value.read_write value hrest, ok_bind]
  rfl

/-- A written value either is a word or does not begin with one. -/
theorem leadingWord?_value (v : Value) (hrest : StopsBefore isNameChar rest) :
    (∃ word, leadingWord? (v.write ++ rest) = some (word, rest)) ∨
      leadingWord? (v.write ++ rest) = none := by
  have hdigits : ∀ n : Nat, ∀ text, leadingWord? (writeNat n ++ text) = none := by
    intro n text
    obtain ⟨c, more, hc⟩ := List.exists_cons_of_ne_nil (Value.writeNat_ne_nil (n := n))
    have hmem : c ∈ writeNat n := by simp [hc]
    have hstart : isNameStart c = false := by
      rw [Bool.eq_false_iff]
      intro h
      exact absurd (Value.isDigit_of_mem_writeNat c hmem)
        (by simp [isDigit_eq_false_of_isNameStart h])
    simp [hc, leadingWord?, hstart]
  cases v with
  | truth b => cases b <;> exact Or.inl ⟨_, leadingWord?_append (by decide) hrest⟩
  | number n =>
    right
    rw [Value.write, writeInt]
    split
    · rfl
    · exact hdigits _ rest
  | word s =>
    rw [Value.write]
    split
    · next hs =>
      rw [Bool.and_eq_true] at hs
      exact Or.inl ⟨_, leadingWord?_append hs.1 hrest⟩
    · exact Or.inr rfl

/-- Reading a written argument in parentheses gives the argument, if what follows is no
name character and no equals sign. -/
theorem read_write (h : ∀ k ∈ a.keyword, isIdentifier k.toList = true)
    (hrest : StopsBefore isNameChar rest) (hequals : StopsBefore (· == '=') rest) :
    read (a.write ++ rest) = .ok (a, rest) := by
  obtain ⟨keyword, value⟩ := a
  cases keyword with
  | none =>
    have hplain : read (value.write ++ rest) = readPlain (value.write ++ rest) := by
      rw [read]
      split
      · next word text hword =>
        rcases leadingWord?_value value hrest with ⟨word', hword'⟩ | hnone
        · rw [hword'] at hword
          obtain ⟨rfl, rfl⟩ := Prod.mk.inj (Option.some.inj hword)
          exact absurd (hequals '=' rfl) (by decide)
        · rw [hnone] at hword
          exact absurd hword (by simp)
      · rfl
    exact hplain.trans (readPlain_write (a := { value }) rfl hrest)
  | some k =>
    have hword : leadingWord? (k.toList ++ '=' :: (value.write ++ rest)) =
        some (k.toList, '=' :: (value.write ++ rest)) :=
      leadingWord?_append (h k rfl) (stopsBefore_cons (by decide))
    simp only [write, List.append_assoc, List.cons_append, read, hword,
      Value.read_write value hrest, ok_bind, String.ofList_toList]
    rfl

/-- A written argument begins with a name character, a quote or a sign. -/
theorem stopsBefore_write {fits : Char → Bool}
    (hfits : ∀ c, isNameChar c = true ∨ c = '"' ∨ c = '-' → fits c = false)
    (h : ∀ k ∈ a.keyword, isIdentifier k.toList = true) :
    StopsBefore fits (a.write ++ rest) := by
  have hname : ∀ c, isNameChar c = true → fits c = false := fun c hc => hfits c (Or.inl hc)
  have hdigits : ∀ n : Nat, ∀ text, StopsBefore fits (writeNat n ++ text) := by
    intro n text
    obtain ⟨c, more, hc⟩ := List.exists_cons_of_ne_nil (Value.writeNat_ne_nil (n := n))
    have hmem : c ∈ writeNat n := by simp [hc]
    rw [hc]
    exact stopsBefore_cons (hname c (isNameChar_of_isDigit (Value.isDigit_of_mem_writeNat c hmem)))
  obtain ⟨keyword, value⟩ := a
  cases keyword with
  | some k =>
    rw [write_keyword, List.append_assoc]
    exact stopsBefore_of_isIdentifier (h k rfl) hname
  | none =>
    rw [write_positional]
    cases value with
    | truth b => cases b <;> exact stopsBefore_cons (hname _ (by decide))
    | number n =>
      rw [Value.write, writeInt]
      split
      · exact stopsBefore_cons (hfits '-' (by simp))
      · exact hdigits _ rest
    | word s =>
      rw [Value.write]
      split
      · next hs =>
        rw [Bool.and_eq_true] at hs
        exact stopsBefore_of_isIdentifier hs.1 hname
      · exact stopsBefore_cons (hfits '"' (by simp))

theorem writeAll_cons_cons (separator : List Char) (a b : Argument) (args : List Argument) :
    writeAll separator (a :: b :: args) =
      a.write ++ separator ++ writeAll separator (b :: args) := by
  simp [writeAll, List.intercalate, List.append_assoc]

/-- Reading written arguments after a colon gives the arguments, if nothing follows that
would make the list longer. -/
theorem readColon_writeAll {limit : Nat} (hne : args ≠ []) (hlimit : args.length ≤ limit)
    (hkeyword : ∀ a ∈ args, a.keyword = none) (hrest : StopsBefore isNameChar rest)
    (hcomma : StopsBefore (· == ',') rest) :
    readColon limit (writeAll [','] args ++ rest) = .ok (args, rest) := by
  induction args generalizing limit with
  | nil => exact absurd rfl hne
  | cons a args ih =>
    obtain ⟨limit, rfl⟩ := Nat.exists_eq_add_of_le' (Nat.le_trans (by simp) hlimit : 1 ≤ limit)
    cases args with
    | nil =>
      have hone : writeAll [','] [a] = a.write := by simp [writeAll]
      rw [hone, readColon, readPlain_write (hkeyword a (by simp)) hrest]
      simp only [ok_bind]
      split
      · exact absurd (hcomma ',' rfl) (by decide)
      · rfl
    | cons b args =>
      have hstop : StopsBefore isNameChar (',' :: (writeAll [','] (b :: args) ++ rest)) :=
        stopsBefore_cons (by decide)
      have hmore := ih (by simp) (Nat.le_of_succ_le_succ hlimit)
        (fun c hc => hkeyword c (by simp [hc]))
      rw [writeAll_cons_cons, readColon, List.append_assoc, List.append_assoc,
        List.singleton_append, readPlain_write (hkeyword a (by simp)) hstop]
      simp only [ok_bind, hmore]
      rfl

/-- What an argument begins with is not blank. -/
theorem isBlank_of_begins (c : Char) (h : isNameChar c = true ∨ c = '"' ∨ c = '-') :
    isBlank c = false := by
  rcases h with h | rfl | rfl
  · exact isBlank_eq_false_of_isNameChar h
  · decide
  · decide

/-- There are at most as many arguments as characters, and one more. -/
theorem length_le_length_writeAll {separator : List Char} (hne : separator ≠ [])
    (args : List Argument) (rest : List Char) :
    args.length ≤ (writeAll separator args ++ rest).length + 1 := by
  induction args with
  | nil => simp
  | cons a args ih =>
    cases args with
    | nil => simp
    | cons b args =>
      have hpos : 0 < separator.length := List.length_pos_iff.mpr hne
      rw [writeAll_cons_cons]
      simp only [List.length_cons, List.length_append] at ih ⊢
      omega

theorem stopsBefore_writeAll {fits : Char → Bool} {separator : List Char}
    (hfits : ∀ c, isNameChar c = true ∨ c = '"' ∨ c = '-' → fits c = false) (hne : args ≠ [])
    (hkeyword : ∀ a ∈ args, ∀ k ∈ a.keyword, isIdentifier k.toList = true) :
    StopsBefore fits (writeAll separator args ++ rest) := by
  obtain ⟨a, args, rfl⟩ := List.exists_cons_of_ne_nil hne
  have ha : ∀ k ∈ a.keyword, isIdentifier k.toList = true := hkeyword a (by simp)
  cases args with
  | nil =>
    have hone : writeAll separator [a] = a.write := by simp [writeAll]
    rw [hone]
    exact stopsBefore_write hfits ha
  | cons b args =>
    rw [writeAll_cons_cons, List.append_assoc, List.append_assoc]
    exact stopsBefore_write hfits ha

/-- Reading written arguments in parentheses gives the arguments and what follows the
closing one. -/
theorem readParen_writeAll {limit : Nat} {text : List Char} (hne : args ≠ [])
    (hlimit : args.length ≤ limit)
    (hkeyword : ∀ a ∈ args, ∀ k ∈ a.keyword, isIdentifier k.toList = true)
    (htext : skipBlanks text = writeAll [',', ' '] args ++ ')' :: rest) :
    readParen limit text = .ok (args, rest) := by
  induction args generalizing limit text with
  | nil => exact absurd rfl hne
  | cons a args ih =>
    obtain ⟨limit, rfl⟩ := Nat.exists_eq_add_of_le' (Nat.le_trans (by simp) hlimit : 1 ≤ limit)
    have ha : ∀ k ∈ a.keyword, isIdentifier k.toList = true := hkeyword a (by simp)
    rw [readParen, htext]
    cases args with
    | nil =>
      have hone : writeAll [',', ' '] [a] = a.write := by simp [writeAll]
      rw [hone, read_write ha (stopsBefore_cons (by decide)) (stopsBefore_cons (by decide))]
      rfl
    | cons b args =>
      have hb : ∀ c ∈ b :: args, ∀ k ∈ c.keyword, isIdentifier k.toList = true :=
        fun c hc => hkeyword c (List.mem_cons_of_mem a hc)
      have hskip : skipBlanks (' ' :: (writeAll [',', ' '] (b :: args) ++ ')' :: rest)) =
          writeAll [',', ' '] (b :: args) ++ ')' :: rest :=
        skipBlanks_of_stopsBefore (stopsBefore_writeAll isBlank_of_begins (by simp) hb)
      rw [writeAll_cons_cons, List.append_assoc, List.append_assoc, List.cons_append,
        read_write ha (stopsBefore_cons (by decide)) (stopsBefore_cons (by decide))]
      have hcomma : skipBlanks (',' :: ' ' :: (writeAll [',', ' '] (b :: args) ++ ')' :: rest)) =
          ',' :: ' ' :: (writeAll [',', ' '] (b :: args) ++ ')' :: rest) :=
        skipBlanks_of_stopsBefore (stopsBefore_cons (by decide))
      have hmore := ih (by simp) (Nat.le_of_succ_le_succ hlimit) hb hskip
      simp only [Walk.lift_eq, ok_bind, List.cons_append, List.nil_append, hcomma, hmore]
      rfl

end Argument

/-! ## Calls -/

namespace Call

variable {c : Call} {name : String} {args : List Argument} {rest : List Char}

/-- A name alone is a call without arguments. -/
theorem read_bare (hname : isIdentifier name.toList = true)
    (hreserved : isReservedWord name.toList = false) (hrest : EndsCall rest) :
    read (name.toList ++ rest) = .ok ({ name }, rest) := by
  have hword := leadingWord?_append hname (hrest.stopsBefore (by decide) (by decide))
  have hcolon : StopsBefore (· == ':') rest := hrest.stopsBefore (by decide) (by decide)
  have hparen : StopsBefore (· == '(') rest := hrest.stopsBefore (by decide) (by decide)
  simp only [read, hword, hreserved, Bool.false_eq_true, if_false, String.ofList_toList]
  split
  · exact absurd (hcolon ':' rfl) (by decide)
  · exact absurd (hparen '(' rfl) (by decide)
  · rfl

/-- After a colon come positional arguments. -/
theorem read_colon (hname : isIdentifier name.toList = true)
    (hreserved : isReservedWord name.toList = false) (hne : args ≠ [])
    (hkeyword : ∀ a ∈ args, a.keyword = none) (hrest : EndsCall rest) :
    read (name.toList ++ ':' :: (Argument.writeAll [','] args ++ rest)) =
      .ok ({ style := .colon, name, args }, rest) := by
  have hword : leadingWord? (name.toList ++ ':' :: (Argument.writeAll [','] args ++ rest)) =
      some (name.toList, ':' :: (Argument.writeAll [','] args ++ rest)) :=
    leadingWord?_append hname (stopsBefore_cons (by decide))
  have hlimit : args.length ≤ (Argument.writeAll [','] args ++ rest).length + 1 :=
    Argument.length_le_length_writeAll (by simp) args rest
  have hargs := Argument.readColon_writeAll hne hlimit hkeyword
    (hrest.stopsBefore (by decide) (by decide)) (hrest.stopsBefore (by decide) (by decide))
  simp only [read, hword, hreserved, Bool.false_eq_true, if_false, hargs, Walk.lift_eq, ok_bind,
    String.ofList_toList]
  rfl

/-- In parentheses come any arguments, or none. -/
theorem read_paren (hname : isIdentifier name.toList = true)
    (hreserved : isReservedWord name.toList = false)
    (hkeyword : ∀ a ∈ args, ∀ k ∈ a.keyword, isIdentifier k.toList = true) :
    read (name.toList ++ '(' :: (Argument.writeAll [',', ' '] args ++ ')' :: rest)) =
      .ok ({ style := .paren, name, args }, rest) := by
  have hword : leadingWord? (name.toList ++ '(' ::
        (Argument.writeAll [',', ' '] args ++ ')' :: rest)) =
      some (name.toList, '(' :: (Argument.writeAll [',', ' '] args ++ ')' :: rest)) :=
    leadingWord?_append hname (stopsBefore_cons (by decide))
  simp only [read, hword, hreserved, Bool.false_eq_true, if_false, String.ofList_toList]
  cases args with
  | nil => rfl
  | cons a args =>
    have hskip : skipBlanks (Argument.writeAll [',', ' '] (a :: args) ++ ')' :: rest) =
        Argument.writeAll [',', ' '] (a :: args) ++ ')' :: rest :=
      skipBlanks_of_stopsBefore
        (Argument.stopsBefore_writeAll Argument.isBlank_of_begins (by simp) hkeyword)
    have hclose : StopsBefore (· == ')')
        (Argument.writeAll [',', ' '] (a :: args) ++ ')' :: rest) := by
      refine Argument.stopsBefore_writeAll ?_ (by simp) hkeyword
      rintro c (hc | rfl | rfl)
      · simpa using ne_of_isNameChar hc (by decide)
      · decide
      · decide
    rw [hskip]
    split
    · next text heq =>
      rw [heq] at hclose
      exact absurd (hclose ')' rfl) (by decide)
    · have hlimit : (a :: args).length ≤
          (Argument.writeAll [',', ' '] (a :: args) ++ ')' :: rest).length + 1 :=
        Argument.length_le_length_writeAll (by simp) (a :: args) (')' :: rest)
      rw [Argument.readParen_writeAll (by simp) hlimit hkeyword hskip]
      rfl

/-- Reading a written call gives the call. -/
theorem read_write (hc : c.WellFormed) (hrest : EndsCall rest) :
    read (c.write ++ rest) = .ok (c, rest) := by
  obtain ⟨style, name, args⟩ := c
  cases style with
  | bare =>
    obtain rfl : args = [] := hc.bare rfl
    exact read_bare hc.name hc.notReserved hrest
  | colon =>
    obtain ⟨hne, hkeyword⟩ := hc.colon rfl
    have hargs : ¬ args.isEmpty = true := by simpa using hne
    rw [write, if_neg hargs, List.append_assoc, List.cons_append]
    exact read_colon hc.name hc.notReserved hne hkeyword hrest
  | paren =>
    rw [write, List.append_assoc, List.cons_append, List.append_assoc, List.cons_append,
      List.nil_append]
    exact read_paren hc.name hc.notReserved (hc.paren rfl)

end Call

end PathSets
