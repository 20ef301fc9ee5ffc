import PathSets.Expression.Reader
import PathSets.Proofs.PatternText

/-!
# Scanning tokens back

`Scans` says which tokens a text is cut into, whatever its offset.  The lemmas about it
build a text from its end to its front: a blank adds nothing, an operator adds a token,
and so does a literal that ends where the text goes on (`Scans.blank`, `Scans.operator`,
`Scans.literal`).

A literal is scanned whole because its groups are closed, which holds of written patterns
and references (`Pattern.WellFormed.grouped_write`, `Reference.WellFormed.grouped_write`).
-/

namespace PathSets

/-! ## Literals -/

/-- A character of a pattern outside all groups. -/
def isPatternChar (c : Char) : Bool :=
  Pattern.isElementChar c || c == '/' || c == '.'

/-- A character of a literal outside all groups. -/
def isLiteralChar (c : Char) : Bool :=
  isPatternChar c || c == '%'

theorem isLiteralChar_of_isPatternChar {c : Char} (h : isPatternChar c = true) :
    isLiteralChar c = true := by
  simp [isLiteralChar, h]

theorem isPatternChar_of_isElementChar {c : Char} (h : Pattern.isElementChar c = true) :
    isPatternChar c = true := by
  simp [isPatternChar, h]

/-- A character of a literal is neither blank nor an operator. -/
theorem endsLiteral_of_isLiteralChar {c : Char} (h : isLiteralChar c = true) :
    isBlank c = false ∧ operatorKind? c = none := by
  simp only [isLiteralChar, isPatternChar, Pattern.isElementChar, Bool.or_eq_true, beq_iff_eq] at h
  rcases h with (((((h | rfl) | rfl) | rfl) | rfl) | rfl) | rfl
  · exact ⟨isBlank_eq_false_of_isNameChar h, operatorKind?_eq_none_of_isNameChar h⟩
  all_goals decide

namespace Token

variable {text members rest : List Char} {c : Char} {group : Option OpenGroup}

/-- The literal goes on with one more character. -/
theorem splitLiteral_cons (h : (group.isNone && endsLiteral c) = false) :
    splitLiteral group (c :: text) =
      (splitLiteral (match group with
        | some g => g.step c
        | none => OpenGroup.ofText? (c :: text)) text).map (prepend [c]) := by
  rw [splitLiteral.eq_def]
  dsimp only
  rw [h]
  cases group with
  | none =>
    dsimp only
    cases splitLiteral (OpenGroup.ofText? (c :: text)) text <;> rfl
  | some g =>
    dsimp only
    cases splitLiteral (g.step c) text <;> rfl

theorem splitLiteral_open (g : OpenGroup) (c : Char) (text : List Char) :
    splitLiteral (some g) (c :: text) =
      (splitLiteral (g.step c) text).map (prepend [c]) :=
  splitLiteral_cons rfl

theorem map_prepend (split : Except (List Char) (List Char × List Char)) (front more : List Char) :
    (split.map (prepend more)).map (prepend front) = split.map (prepend (front ++ more)) := by
  cases split with
  | error start => rfl
  | ok split => exact congrArg Except.ok (prepend_prepend front more split)

/-- Quotes are passed over together with what stands in them. -/
theorem splitLiteral_quoted (h : Quoted text) (start rest : List Char) :
    splitLiteral (some (.quote start)) (text ++ rest) =
      (splitLiteral (some (.brace start)) rest).map (prepend text) := by
  induction h with
  | close =>
    rw [List.singleton_append, splitLiteral_open]
    rfl
  | @escape c text _ ih =>
    have hescape : (OpenGroup.quote start).step '\\' = some (.escape start) := rfl
    have hescaped : (OpenGroup.escape start).step c = some (.quote start) := rfl
    rw [List.cons_append, List.cons_append, splitLiteral_open, hescape, splitLiteral_open,
      hescaped, ih, map_prepend, map_prepend]
    rfl
  | @char c text hquote hescape _ ih =>
    have hstep : (OpenGroup.quote start).step c = some (.quote start) := by
      simp [OpenGroup.step, hescape, hquote]
    rw [List.cons_append, splitLiteral_open, hstep, ih, map_prepend]
    rfl

/-- What stands in braces is passed over. -/
theorem splitLiteral_inert (h : Inert text) (start rest : List Char) :
    splitLiteral (some (.brace start)) (text ++ rest) =
      (splitLiteral (some (.brace start)) rest).map (prepend text) := by
  induction h with
  | nil =>
    rw [List.nil_append]
    cases splitLiteral (some (.brace start)) rest <;> rfl
  | @char c text hquote hopen hclose _ ih =>
    have hstep : (OpenGroup.brace start).step c = some (.brace start) := by
      simp [OpenGroup.step, hquote, hclose]
    rw [List.cons_append, splitLiteral_open, hstep, ih, map_prepend]
    rfl
  | quoted hquoted _ ih =>
    have hstep : (OpenGroup.brace start).step '"' = some (.quote start) := rfl
    rw [List.append_assoc, List.cons_append, splitLiteral_open, hstep,
      splitLiteral_quoted hquoted, ih, map_prepend, map_prepend]
    simp

/-- Sets in brackets are passed over. -/
theorem splitLiteral_set (h : ∀ c ∈ members, isSetChar c = true) (start rest : List Char) :
    splitLiteral (some (.bracket start)) (members ++ ']' :: rest) =
      (splitLiteral none rest).map (prepend (members ++ [']'])) := by
  induction members with
  | nil => exact splitLiteral_open _ _ _
  | cons c members ih =>
    have hclose : c ≠ ']' := by
      rintro rfl
      exact absurd (h ']' (by simp)) (by decide)
    have hstep : (OpenGroup.bracket start).step c = some (.bracket start) := by
      simp [OpenGroup.step, hclose]
    rw [List.cons_append, splitLiteral_open, hstep,
      ih fun d hd => h d (List.mem_cons_of_mem c hd), map_prepend]
    rfl

/-- What is grouped is passed over. -/
theorem splitLiteral_grouped (h : Grouped isLiteralChar text) (rest : List Char) :
    splitLiteral none (text ++ rest) = (splitLiteral none rest).map (prepend text) := by
  induction h with
  | nil =>
    rw [List.nil_append]
    cases splitLiteral none rest <;> rfl
  | @char c text hc _ ih =>
    obtain ⟨hblank, hoperator⟩ := endsLiteral_of_isLiteralChar hc
    have hne : ∀ d : Char, isLiteralChar d = false → c ≠ d := by
      rintro d hd rfl
      rw [hc] at hd
      exact absurd hd (by decide)
    have hopen : OpenGroup.ofText? (c :: (text ++ rest)) = none := by
      rw [OpenGroup.ofText?]
      · exact fun more heq => hne '[' (by decide) (List.cons.inj heq).1
      · exact fun more heq => hne '{' (by decide) (List.cons.inj heq).1
    rw [List.cons_append, splitLiteral_cons (by simp [endsLiteral, hblank, hoperator]), hopen,
      ih, map_prepend]
    rfl
  | @set members text hmembers _ ih =>
    rw [List.append_assoc, List.cons_append, List.cons_append, splitLiteral_cons (by decide),
      OpenGroup.ofText?, splitLiteral_set hmembers, ih, map_prepend, map_prepend]
    simp
  | @braces body text hbody _ ih =>
    have hclose : ∀ start, (OpenGroup.brace start).step '}' = none := fun _ => rfl
    rw [List.append_assoc, List.cons_append, List.cons_append, splitLiteral_cons (by decide),
      OpenGroup.ofText?, splitLiteral_inert hbody, splitLiteral_open, hclose, ih, map_prepend,
      map_prepend, map_prepend]
    simp

/-- A blank, an operator or the end of the text ends a literal. -/
theorem splitLiteral_stop (hrest : StopsBefore (fun c => !endsLiteral c) rest) :
    splitLiteral none rest = .ok ([], rest) := by
  cases rest with
  | nil => rfl
  | cons c rest =>
    have hc : endsLiteral c = true := by simpa using hrest c rfl
    simp [splitLiteral, hc]

/-- A literal whose groups are closed ends only where a blank or an operator follows it, or
nothing. -/
theorem splitLiteral_append (h : Grouped isLiteralChar text)
    (hrest : StopsBefore (fun c => !endsLiteral c) rest) :
    splitLiteral none (text ++ rest) = .ok (text, rest) := by
  rw [splitLiteral_grouped h, splitLiteral_stop hrest, Except.map, prepend, List.append_nil]

end Token

/-! ## Tokens -/

/-- A token without its place: its kind and its characters. -/
abbrev Lexeme : Type := TokenKind × List Char

namespace Token

/-- The kind and the characters of a token. -/
def lexeme (token : Token) : Lexeme :=
  (token.kind, token.chars)

/-- Whether a text is cut into tokens of these kinds and characters, wherever it stands. -/
def Scans (text : List Char) (lexemes : List Lexeme) : Prop :=
  ∀ limit offset, text.length ≤ limit →
    ∃ tokens, scanFrom limit offset text = .ok tokens ∧ tokens.map lexeme = lexemes

section Scans

variable {text word : List Char} {lexemes : List Lexeme} {c : Char} {kind : TokenKind}

theorem scans_nil : Scans [] [] := by
  intro limit offset _
  exact ⟨[], by cases limit <;> rfl, rfl⟩

/-- A blank adds no token. -/
theorem Scans.blank (h : Scans text lexemes) (hc : isBlank c = true) :
    Scans (c :: text) lexemes := by
  intro limit offset hlimit
  obtain ⟨limit, rfl⟩ := Nat.exists_eq_add_of_le' (Nat.le_trans (by simp) hlimit : 1 ≤ limit)
  rw [scanFrom, if_pos hc]
  exact h limit _ (Nat.le_of_succ_le_succ hlimit)

/-- An operator adds a token. -/
theorem Scans.operator (h : Scans text lexemes) (hblank : isBlank c = false)
    (hc : operatorKind? c = some kind) : Scans (c :: text) ((kind, [c]) :: lexemes) := by
  intro limit offset hlimit
  obtain ⟨limit, rfl⟩ := Nat.exists_eq_add_of_le' (Nat.le_trans (by simp) hlimit : 1 ≤ limit)
  obtain ⟨tokens, htokens, hmap⟩ :=
    h limit (offset + c.utf8Size) (Nat.le_of_succ_le_succ hlimit)
  refine ⟨⟨kind, [c], offset⟩ :: tokens, ?_, by rw [List.map_cons, hmap]; rfl⟩
  rw [scanFrom, if_neg (by simp [hblank]), hc]
  simp only [htokens, ok_bind]
  rfl

/-- The kind of token that a literal makes. -/
def literalKind (literal : List Char) : TokenKind :=
  if literal.head? = some '%' then .reference else .pattern

/-- A literal whose groups are closed is the next token, and scanning goes on after it. -/
theorem scanFrom_literal (hword : Grouped isLiteralChar word) (hne : word ≠ [])
    (htext : StopsBefore (fun c => !endsLiteral c) text) (limit offset : Nat) :
    scanFrom (limit + 1) offset (word ++ text) =
      (scanFrom limit (offset + utf8Size word) text).map
        (⟨literalKind word, word, offset⟩ :: ·) := by
  obtain ⟨c, more, rfl⟩ := List.exists_cons_of_ne_nil hne
  have hc : isBlank c = false ∧ operatorKind? c = none := by
    rcases hword.head c rfl with hc | rfl | rfl
    · exact endsLiteral_of_isLiteralChar hc
    · decide
    · decide
  have hsplit := splitLiteral_append hword htext
  have hkind : literalKind (c :: more) = if c = '%' then .reference else .pattern := by
    simp [literalKind]
  rw [List.cons_append] at hsplit ⊢
  rw [scanFrom, if_neg (by simp [hc.1]), hc.2, hsplit, hkind]
  simp only [ok_bind]
  cases scanFrom limit (offset + utf8Size (c :: more)) text <;> rfl

/-- A literal adds a token. -/
theorem Scans.literal (h : Scans text lexemes) (hword : Grouped isLiteralChar word)
    (hne : word ≠ []) (htext : StopsBefore (fun c => !endsLiteral c) text) :
    Scans (word ++ text) ((literalKind word, word) :: lexemes) := by
  intro limit offset hlimit
  have hpos : 0 < word.length := List.length_pos_iff.mpr hne
  rw [List.length_append] at hlimit
  obtain ⟨limit, rfl⟩ := Nat.exists_eq_add_of_le' (Nat.le_trans (by omega) hlimit : 1 ≤ limit)
  obtain ⟨tokens, htokens, hmap⟩ := h limit (offset + utf8Size word) (by omega)
  refine ⟨⟨literalKind word, word, offset⟩ :: tokens, ?_, by rw [List.map_cons, hmap]; rfl⟩
  rw [scanFrom_literal hword hne htext, htokens]
  rfl

end Scans

end Token

/-! ## Written patterns -/

namespace Path

theorem grouped_writePrims {anchor : Anchor} {prims : List String} (h : Descends anchor prims) :
    Grouped isPatternChar (writePrims prims) := by
  have hprim : ∀ prim ∈ prims, Grouped isPatternChar prim.toList := by
    intro prim hmem
    rcases h.eq_or_isIdentifier prim hmem with rfl | hname
    · exact grouped_of_all (by decide)
    · exact (grouped_of_isIdentifier hname).mono fun _ => isPatternChar_of_isElementChar
  clear h
  induction prims with
  | nil => exact .nil
  | cons prim prims ih =>
    cases prims with
    | nil => simpa [writePrims] using hprim prim (by simp)
    | cons next prims =>
      rw [writePrims_cons_cons]
      exact (hprim prim (by simp)).append
        (.char (by decide) (ih fun n hn => hprim n (List.mem_cons_of_mem prim hn)))

theorem WellFormed.grouped_write {p : Path} (hp : p.WellFormed) :
    Grouped isPatternChar p.write := by
  have hproperty : Grouped isPatternChar (writeProperty p.property) := by
    cases hproperty : p.property with
    | none => exact .nil
    | some name =>
      exact .char (by decide) ((grouped_of_isPropertyName (hp.property name hproperty).1).mono
        fun _ => isPatternChar_of_isElementChar)
  have hbody := (grouped_writePrims hp.prims).append hproperty
  rw [write]
  split
  · exact .nil
  · exact .char (by decide) hbody
  · split
    · exact .char (by decide) .nil
    · exact hbody

/-- Only a property has colons. -/
theorem WellFormed.not_mem_write {p : Path} (hp : p.WellFormed) (hproperty : p.isProperty = false) :
    ':' ∉ p.write := by
  have hnone : writeProperty p.property = [] := by
    have hnone : p.property = none := by simpa [isProperty] using hproperty
    rw [hnone]
    rfl
  have hprims : ':' ∉ writePrims p.prims := by
    intro hmem
    rcases mem_intercalate hmem with hc | ⟨part, hpart, hc⟩
    · exact absurd hc (by decide)
    · obtain ⟨prim, hprim, rfl⟩ := List.mem_map.mp hpart
      exact hp.prims.not_mem (by decide) (by decide) prim hprim hc
  rw [write, hnone, List.append_nil, List.append_nil]
  split
  · simp
  · simpa using hprims
  · split
    · simp
    · exact hprims

end Path

namespace Pattern

theorem Continues.grouped_write {isProperty : Bool} {p : Pattern} {components : List Component}
    {separator : List Char} (h : Continues isProperty p components)
    (hseparator : Grouped isPatternChar separator) :
    Grouped isPatternChar (writeComponents isProperty separator components) := by
  have hwrite : ∀ {namespaced : Bool} {c : Component}, c.WellFormed namespaced →
      Grouped isPatternChar c.write :=
    fun hc => hc.grouped_write.mono fun _ => isPatternChar_of_isElementChar
  induction h generalizing separator with
  | done _ => exact .nil
  | stretch _ _ ih => exact .char (by decide) (.char (by decide) (ih .nil))
  | element hc _ hlast _ ih =>
    rw [writeComponents_element hc hlast]
    exact (hseparator.append (hwrite hc)).append (ih (.char (by decide) .nil))
  | property hproperty hc _ _ =>
    subst hproperty
    rw [writeComponents_property hc]
    exact .char (by decide) (hwrite hc)

theorem WellFormed.grouped_write {p : Pattern} (hp : p.WellFormed) :
    Grouped isPatternChar p.write := by
  have hbase : Grouped isPatternChar p.writeBase := by
    rw [writeBase]
    split
    · split
      · exact .char (by decide) .nil
      · exact .nil
    split
    · split
      · exact .char (by decide) .nil
      · exact .nil
    · exact hp.base.grouped_write
  have hseparator : Grouped isPatternChar (if p.base.isHere then [] else ['/']) := by
    split
    · exact .nil
    · exact .char (by decide) .nil
  have hcomponents : Grouped isPatternChar (writeComponents p.isProperty
      (if p.base.isHere then [] else ['/']) p.components) := by
    by_cases hproperty : p.base.isProperty = true
    · rw [(hp.property hproperty).1]
      exact .nil
    · exact (hp.components (by simpa using hproperty)).grouped_write hseparator
  exact hbase.append hcomponents

/-- A text with its groups closed is no reference if nothing else stands in it outside them
than what may stand in a pattern. -/
theorem literalKind_of_grouped {text : List Char} (h : Grouped isPatternChar text) :
    Token.literalKind text = .pattern := by
  have hhead : text.head? ≠ some '%' := by
    intro heq
    rcases h.head '%' heq with hc | hc | hc
    · exact absurd hc (by decide)
    · exact absurd hc (by decide)
    · exact absurd hc (by decide)
  rw [Token.literalKind, if_neg hhead]

/-- A written pattern is no reference. -/
theorem WellFormed.literalKind_write {p : Pattern} (hp : p.WellFormed) :
    p.write ≠ [] ∧ Token.literalKind p.write = .pattern := by
  have hne : p.write ≠ [] := by
    intro heq
    have hread := read_write hp
    rw [heq] at hread
    exact absurd hread (by simp [read])
  exact ⟨hne, literalKind_of_grouped hp.grouped_write⟩

end Pattern

/-! ## Written references -/

namespace Reference

/-- A reference that can be written and read back. -/
structure WellFormed (r : Reference) : Prop where
  path : r.path.WellFormed
  property : r.path.isProperty = false
  name : isIdentifier r.name.toList = true

variable {r : Reference}

theorem wellFormed_weaker : weaker.WellFormed :=
  ⟨Path.wellFormed_empty, rfl, by decide⟩

theorem WellFormed.eq_weaker (hr : r.WellFormed) (h : r.isWeaker = true) : r = weaker := by
  obtain ⟨⟨anchor, prims, property⟩, name⟩ := r
  simp only [isWeaker, Path.isEmpty, Bool.and_eq_true, beq_iff_eq] at h
  obtain ⟨rfl, rfl⟩ := h
  obtain ⟨rfl, rfl⟩ : prims = [] ∧ property = none := hr.path.empty rfl
  rfl

theorem WellFormed.grouped_write (hr : r.WellFormed) : Grouped isLiteralChar r.write := by
  rw [write]
  split
  · exact grouped_of_all (by decide)
  · have hpath := hr.path.grouped_write.mono fun _ => isLiteralChar_of_isPatternChar
    have hname : Grouped isLiteralChar r.name.toList :=
      (grouped_of_isIdentifier hr.name).mono fun _ hc =>
        isLiteralChar_of_isPatternChar (isPatternChar_of_isElementChar hc)
    exact .char (by decide) (hpath.append (.char (by decide) hname))

theorem literalKind_write (r : Reference) :
    r.write ≠ [] ∧ Token.literalKind r.write = .reference := by
  rw [write]
  split <;> simp [Token.literalKind]

/-- Reading a written reference gives the reference. -/
theorem WellFormed.read_write (hr : r.WellFormed) : Reference.read r.write = .ok r := by
  by_cases hweaker : r.isWeaker = true
  · rw [hr.eq_weaker hweaker]
    rfl
  · have hwrite : r.write = '%' :: (r.path.write ++ ':' :: r.name.toList) := by
      rw [write, if_neg hweaker]
      rfl
    have hrun : ∀ c ∈ r.path.write, (c != ':') = true := by
      intro c hc
      rw [bne_iff_ne]
      rintro rfl
      exact hr.path.not_mem_write hr.property hc
    have hstop : StopsBefore (· != ':') (':' :: r.name.toList) := stopsBefore_cons (by decide)
    have hbody : r.path.write ++ ':' :: r.name.toList ≠ weakerName.toList := by
      intro heq
      have hmem : ':' ∈ r.path.write ++ ':' :: r.name.toList := by simp
      rw [heq] at hmem
      exact absurd hmem (by decide)
    simp only [Reference.read, hwrite, List.tail_cons, if_neg hbody, dropWhile_run hrun hstop,
      takeWhile_run hrun hstop, Path.read_write hr.path, hr.property, hr.name, String.ofList_toList]
    rfl

end Reference

end PathSets
