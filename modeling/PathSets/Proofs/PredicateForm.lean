import PathSets.Proofs.PredicateText

/-!
# What reading predicates gives

A predicate that has been read is well formed and no deeper than `maxDepth`
(`Predicate.wellFormed_of_read`), which is all that reading it back asks for.

The depth that a reader reports is that of the tree.  Each reader keeps this if the
readers below it do (`Yields`).

So the predicates whose text spells them are the well-formed ones that are no deeper than
`maxDepth`, and no text spells any other (`Predicate.parse_text_iff_wellFormed`).
-/

namespace PathSets

theorem leadingWord?_eq_some {text word rest : List Char}
    (h : leadingWord? text = some (word, rest)) : isIdentifier word = true := by
  cases text with
  | nil => exact absurd h (by simp [leadingWord?])
  | cons c text =>
    rw [leadingWord?] at h
    split at h
    · next hc =>
      obtain ⟨rfl, -⟩ := Prod.mk.inj (Option.some.inj h)
      simp only [isIdentifier, hc, Bool.true_and, List.all_eq_true]
      exact fun d hd => List.mem_takeWhile_imp hd
    · exact absurd h (by simp)

/-! ## Arguments and calls -/

namespace Argument

variable {text rest : List Char} {a : Argument} {args : List Argument} {limit : Nat}

theorem keyword_of_readPlain (h : readPlain text = .ok (a, rest)) : a.keyword = none := by
  obtain ⟨⟨value, more⟩, -, hresult⟩ := bind_eq_ok.mp h
  obtain ⟨rfl, -⟩ := Prod.mk.inj (Except.ok.inj hresult)
  rfl

theorem keyword_of_read (h : read text = .ok (a, rest)) :
    ∀ k ∈ a.keyword, isIdentifier k.toList = true := by
  rw [read] at h
  split at h
  · next word more hword =>
    obtain ⟨⟨value, more'⟩, -, hresult⟩ := bind_eq_ok.mp h
    obtain ⟨rfl, -⟩ := Prod.mk.inj (Except.ok.inj hresult)
    intro k hk
    obtain rfl : String.ofList word = k := Option.some.inj hk
    rw [String.toList_ofList]
    exact leadingWord?_eq_some hword
  · simp [keyword_of_readPlain h]

theorem keyword_of_readColon (h : readColon limit text = .ok (args, rest)) :
    args ≠ [] ∧ ∀ a ∈ args, a.keyword = none := by
  induction limit generalizing text args rest with
  | zero => exact absurd h (by simp [readColon])
  | succ limit ih =>
    obtain ⟨⟨a, more⟩, ha, h⟩ := bind_eq_ok.mp h
    have hkeyword := keyword_of_readPlain ha
    dsimp only at h
    split at h
    · obtain ⟨⟨others, more'⟩, hothers, hresult⟩ := bind_eq_ok.mp h
      obtain ⟨rfl, -⟩ := Prod.mk.inj (Except.ok.inj hresult)
      refine ⟨by simp, fun b hb => ?_⟩
      rcases List.mem_cons.mp hb with rfl | hb
      · exact hkeyword
      · exact (ih hothers).2 b hb
    · obtain ⟨rfl, -⟩ := Prod.mk.inj (Except.ok.inj h)
      simp [hkeyword]

theorem keyword_of_readParen (h : readParen limit text = .ok (args, rest)) :
    ∀ a ∈ args, ∀ k ∈ a.keyword, isIdentifier k.toList = true := by
  induction limit generalizing text args rest with
  | zero => exact absurd h (by simp [readParen])
  | succ limit ih =>
    obtain ⟨⟨a, more⟩, ha, h⟩ := bind_eq_ok.mp h
    have hkeyword := keyword_of_read ha
    dsimp only at h
    split at h
    · obtain ⟨⟨others, more'⟩, hothers, hresult⟩ := bind_eq_ok.mp h
      obtain ⟨rfl, -⟩ := Prod.mk.inj (Except.ok.inj hresult)
      intro b hb
      rcases List.mem_cons.mp hb with rfl | hb
      · exact hkeyword
      · exact ih hothers b hb
    · obtain ⟨rfl, -⟩ := Prod.mk.inj (Except.ok.inj h)
      intro b hb
      obtain rfl := List.mem_singleton.mp hb
      exact hkeyword
    · exact absurd h (by simp)

end Argument

theorem Call.wellFormed_of_read {c : Call} {text rest : List Char}
    (h : Call.read text = .ok (c, rest)) : c.WellFormed := by
  rw [read] at h
  split at h
  · exact absurd h (by simp)
  · next word more hword =>
    have hname : isIdentifier (String.ofList word).toList = true := by
      rw [String.toList_ofList]
      exact leadingWord?_eq_some hword
    dsimp only at h
    split at h
    · exact absurd h (by simp)
    · next hreserved =>
      have hreserved' : isReservedWord (String.ofList word).toList = false := by
        rw [String.toList_ofList]
        simpa using hreserved
      split at h
      · obtain ⟨⟨args, more'⟩, hargs, hresult⟩ := bind_eq_ok.mp h
        obtain ⟨rfl, -⟩ := Prod.mk.inj (Except.ok.inj hresult)
        exact ⟨hname, hreserved', by simp, fun _ => Argument.keyword_of_readColon hargs, by simp⟩
      · rw [Walk.pass_bind] at h
        split at h
        · obtain ⟨rfl, -⟩ := Prod.mk.inj (Except.ok.inj h)
          exact ⟨hname, hreserved', by simp, by simp, by simp⟩
        · obtain ⟨⟨args, more'⟩, hargs, hresult⟩ := bind_eq_ok.mp h
          obtain ⟨rfl, -⟩ := Prod.mk.inj (Except.ok.inj hresult)
          exact ⟨hname, hreserved', by simp, by simp, fun _ => Argument.keyword_of_readParen hargs⟩
      · obtain ⟨rfl, -⟩ := Prod.mk.inj (Except.ok.inj h)
        exact ⟨hname, hreserved', fun _ => rfl, by simp, by simp⟩

/-! ## Levels -/

namespace Predicate

variable {operand : List Char → Reading PredicateFault (Parsed × List Char)}
  {op : Connective} {text rest : List Char} {parsed : Parsed}

/-- What a reader reports: a well-formed tree, its depth, and no more than `maxDepth`. -/
structure Parsed.Sound (parsed : Parsed) : Prop where
  wellFormed : parsed.tree.WellFormed
  depth : parsed.tree.depth = parsed.depth
  bound : parsed.depth ≤ maxDepth

/-- A reader that reports the depth of a well-formed tree. -/
def Yields (operand : List Char → Reading PredicateFault (Parsed × List Char)) : Prop :=
  ∀ text parsed rest, operand text = .ok (parsed, rest) → parsed.Sound

theorem Yields.primary {inner : Option (List Char → Reading PredicateFault (Parsed × List Char))}
    (hinner : ∀ read ∈ inner, Yields read) : Yields (readPrimary inner) := by
  intro text parsed rest h
  rw [readPrimary] at h
  split at h
  · cases inner with
    | none => exact absurd h (by simp)
    | some read =>
      simp only [Walk.pass_bind] at h
      obtain ⟨⟨found, more⟩, hfound, hresult⟩ := bind_eq_ok.mp h
      dsimp only at hresult
      split at hresult
      · obtain ⟨rfl, -⟩ := Prod.mk.inj (Except.ok.inj hresult)
        exact hinner read rfl _ _ _ hfound
      · exact absurd hresult (by simp)
  · obtain ⟨⟨found, more⟩, hfound, hresult⟩ := bind_eq_ok.mp h
    obtain ⟨rfl, -⟩ := Prod.mk.inj (Except.ok.inj hresult)
    exact ⟨Call.wellFormed_of_read hfound, rfl, Nat.zero_le maxDepth⟩

theorem wellFormed_negate {p : Predicate} (hp : p.WellFormed) (count : Nat) :
    (negate count p).WellFormed := by
  induction count with
  | zero => exact hp
  | succ count ih => exact ih

theorem depth_negate (p : Predicate) (count : Nat) :
    (negate count p).depth = p.depth + count := by
  induction count with
  | zero => rfl
  | succ count ih =>
    have hstep : negate (count + 1) p = not (negate count p) := rfl
    rw [hstep, depth, ih, Nat.add_assoc]

theorem Yields.negated (h : Yields operand) : Yields (readNegated operand) := by
  intro text parsed rest hread
  obtain ⟨⟨found, more⟩, hfound, hresult⟩ := bind_eq_ok.mp hread
  have hsound := h _ _ _ hfound
  dsimp only at hresult
  split at hresult
  · exact absurd hresult (by simp)
  · next hbound =>
    obtain ⟨rfl, -⟩ := Prod.mk.inj (Except.ok.inj hresult)
    refine ⟨wellFormed_negate hsound.wellFormed _, ?_, Nat.not_lt.mp hbound⟩
    rw [depth_negate, hsound.depth]

theorem Yields.chain (h : Yields operand) {limit : Nat} {first : Parsed} (hfirst : first.Sound)
    (hread : Predicate.chain op operand limit first text = .ok (parsed, rest)) :
    parsed.Sound := by
  induction limit generalizing first text with
  | zero =>
    obtain ⟨rfl, -⟩ := Prod.mk.inj (Except.ok.inj hread)
    exact hfirst
  | succ limit ih =>
    rw [Predicate.chain] at hread
    split at hread
    · obtain ⟨rfl, -⟩ := Prod.mk.inj (Except.ok.inj hread)
      exact hfirst
    · obtain ⟨⟨next, more⟩, hnext, hresult⟩ := bind_eq_ok.mp hread
      have hsound := h _ _ _ hnext
      dsimp only at hresult
      split at hresult
      · exact absurd hresult (by simp)
      · next hbound =>
        have hjoined : Parsed.Sound
            ⟨binary op first.tree next.tree, max first.depth next.depth + 1⟩ := {
          wellFormed := ⟨hfirst.wellFormed, hsound.wellFormed⟩
          depth := by simp only [depth, hfirst.depth, hsound.depth]
          bound := Nat.not_lt.mp hbound }
        exact ih hjoined hresult

theorem Yields.readChain (h : Yields operand) : Yields (readChain op operand) := by
  intro text parsed rest hread
  obtain ⟨⟨first, more⟩, hfirst, hresult⟩ := bind_eq_ok.mp hread
  exact h.chain (h _ _ _ hfirst) hresult

theorem yields_readNested (nesting : Nat) : Yields (readNested nesting) := by
  have hlevels : ∀ inner : Option (List Char → Reading PredicateFault (Parsed × List Char)),
      (∀ read ∈ inner, Yields read) → Yields (readLevels inner) := by
    intro inner hinner
    exact (Yields.primary hinner).negated.readChain.readChain.readChain
  induction nesting with
  | zero => exact hlevels none nofun
  | succ nesting ih =>
    refine hlevels (some (readNested nesting)) fun read hread => ?_
    obtain rfl := Option.some.inj hread
    exact ih

/-! ## Whole predicates -/

/-- A predicate that has been read is well formed and not too deep. -/
theorem wellFormed_of_read {p : Predicate} (h : read text = .ok p) :
    p.WellFormed ∧ p.depth ≤ maxDepth := by
  rw [read] at h
  split at h
  · exact absurd h (by simp)
  · obtain ⟨⟨parsed, rest⟩, hparsed, hresult⟩ := bind_eq_ok.mp h
    have hsound := yields_readNested maxDepth _ _ _ hparsed
    dsimp only at hresult
    split at hresult
    · obtain rfl := Except.ok.inj hresult
      exact ⟨hsound.wellFormed, hsound.depth ▸ hsound.bound⟩
    · exact absurd hresult (by simp)

/-! ## Round trip -/

/-- A predicate is what its own text spells if and only if its calls can be written and it
is no deeper than `maxDepth`.  Every predicate that some text spells is of this kind. -/
theorem parse_text_iff_wellFormed (p : Predicate) :
    (parse p.text = .ok p ↔ p.WellFormed ∧ p.depth ≤ maxDepth) ∧
      ∀ text, parse text = .ok p →
        p.WellFormed ∧ p.depth ≤ maxDepth ∧ parse p.text = .ok p := by
  have hread : ∀ text, parse text = .ok p → p.WellFormed ∧ p.depth ≤ maxDepth :=
    fun text h => wellFormed_of_read (mapError_eq_ok.mp h)
  have hwrite : p.WellFormed → p.depth ≤ maxDepth → parse p.text = .ok p := by
    intro hp hdepth
    rw [parse, text, String.toList_ofList]
    exact mapError_eq_ok.mpr (read_write hp hdepth)
  refine ⟨⟨hread p.text, fun ⟨hp, hdepth⟩ => hwrite hp hdepth⟩, fun text h => ?_⟩
  obtain ⟨hp, hdepth⟩ := hread text h
  exact ⟨hp, hdepth, hwrite hp hdepth⟩

/-- A text that reads like a Boolean is quoted, a keyword may be a connective, and a
parenthesis after a blank is a group, unlike the one after a name. -/
theorem parse_text_iff_wellFormed_of_group :
    let p := binary .juxtaposition
      (not (call ⟨.colon, "f", [⟨none, .word "true"⟩, ⟨none, .number Int64.minValue⟩]⟩))
      (binary .or (call ⟨.paren, "g", [⟨some "and", .word "a\"\\b"⟩]⟩) (call ⟨.paren, "h", []⟩))
    p.text = "not f:\"true\",-9223372036854775808 (g(and=\"a\\\"\\\\b\") or h())" ∧
      parse p.text = .ok p ∧ p.WellFormed ∧ p.depth ≤ maxDepth := by
  intro p
  have hp : p.WellFormed := ⟨⟨by decide, by decide, nofun, fun _ => by decide, nofun⟩,
    ⟨by decide, by decide, nofun, nofun, fun _ => by decide⟩,
    ⟨by decide, by decide, nofun, nofun, fun _ => by decide⟩⟩
  have hdepth : p.depth ≤ maxDepth := by decide
  have hparse : parse p.text = .ok p := (parse_text_iff_wellFormed p).1.mpr ⟨hp, hdepth⟩
  have hform := (parse_text_iff_wellFormed p).2 p.text hparse
  exact ⟨by decide +kernel, hparse, hform.1, hform.2.1⟩

end Predicate

end PathSets
