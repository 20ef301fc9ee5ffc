import PathSets.Proofs.ExpressionGrammar
import PathSets.Proofs.PatternForm
import PathSets.Proofs.PredicateSource
import PathSets.Proofs.TokenText

/-!
# Texts that patterns are read from

A text that is read as a pattern has no blank and no operator outside its groups, and every
group in it is closed again (`Pattern.grouped_of_read`).  This holds of all such texts, not
only of written patterns: what stands in braces has been read as a predicate, and what
stands in brackets belongs to a glob.

So such a text is one token, and as an expression it is the pattern
(`Expression.parse_of_parse_pattern`).
-/

namespace PathSets

/-! ## Elements -/

namespace Pattern

variable {p q : Pattern} {text element rest after : List Char} {name : String}
  {condition : Option Predicate} {shape : Shape} {afterSlash first : Bool}

theorem grouped_of_childShape? (h : childShape? name = some shape) :
    Grouped isPatternChar name.toList := by
  rw [childShape?] at h
  split at h
  · next hliteral =>
    simp only [Bool.or_eq_true, beq_iff_eq] at hliteral
    obtain (hempty | hname) | rfl := hliteral
    · rw [String.isEmpty_iff.mp hempty]
      exact .nil
    · exact (grouped_of_isIdentifier hname).mono fun _ => isPatternChar_of_isElementChar
    · exact grouped_of_all (by decide)
  split at h
  · next hglob => exact (grouped_of_isGlob hglob).mono fun _ => isPatternChar_of_isElementChar
  · exact absurd h (by simp)

theorem grouped_of_propertyShape? (h : propertyShape? name = some shape) :
    Grouped isPatternChar name.toList := by
  rw [propertyShape?] at h
  split at h
  · next hname =>
    exact (grouped_of_isPropertyName hname).mono fun _ => isPatternChar_of_isElementChar
  split at h
  · next hglob => exact (grouped_of_isGlob hglob).mono fun _ => isPatternChar_of_isElementChar
  · exact absurd h (by simp)

/-- An element is grouped if its name is, since a predicate has been read from what stands in
its braces. -/
theorem grouped_of_splitPredicate (h : splitPredicate element after = .ok (name, condition))
    (hname : Grouped isPatternChar name.toList) : Grouped isPatternChar element := by
  obtain ⟨-, rfl⟩ | ⟨body, predicate, -, hread, rfl⟩ := splitPredicate_cases h
  · exact hname
  · exact hname.append (.braces (Predicate.inert_of_read hread) .nil)

theorem Adds.grouped (h : Adds p afterSlash element rest q) : Grouped isPatternChar element := by
  cases h with
  | empty hslash => exact .nil
  | parts hne hdot hsplit happend =>
    rw [appendChild] at happend
    split at happend
    · exact absurd happend (by simp)
    split at happend
    · exact absurd happend (by simp)
    · next hshape => exact grouped_of_splitPredicate hsplit (grouped_of_childShape? hshape)

theorem grouped_of_readProperty (h : readProperty p text = .ok q) : Grouped isPatternChar text := by
  obtain ⟨name, condition, hsplit, hcan, -⟩ := readProperty_cases h
  rw [canAppendProperty, Bool.and_eq_true] at hcan
  obtain ⟨shape, hshape⟩ := Option.isSome_iff_exists.mp hcan.2
  exact grouped_of_splitPredicate hsplit (grouped_of_propertyShape? hshape)

/-! ## Whole patterns -/

theorem ElementTrace.grouped (h : ElementTrace p afterSlash text q) :
    Grouped isPatternChar text := by
  induction h with
  | done => exact .nil
  | last h => exact h.grouped
  | property h hproperty =>
    exact h.grouped.append (.char (by decide) (grouped_of_readProperty hproperty))
  | stretch h _ ih => exact h.grouped.append (.char (by decide) (.char (by decide) ih))
  | slash h _ _ ih => exact h.grouped.append (.char (by decide) ih)

theorem LeadTo.grouped (h : LeadTo p first text q) : Grouped isPatternChar text := by
  cases h with
  | here hfirst => exact grouped_of_all (by decide)
  | up happend => exact grouped_of_all (by decide)

theorem LeadingTrace.grouped (h : LeadingTrace p first text q) : Grouped isPatternChar text := by
  induction h with
  | done => exact .nil
  | elements h => exact h.grouped
  | last h => exact h.grouped
  | stretch h hmore =>
    exact h.grouped.append (.char (by decide) (.char (by decide) hmore.grouped))
  | slash h _ ih => exact h.grouped.append (.char (by decide) ih)

/-- What a pattern has been read from has its groups closed and nothing else in it outside
them. -/
theorem grouped_of_read (h : read text = .ok q) : Grouped isPatternChar text := by
  obtain ⟨more, rfl, hmore⟩ | ⟨more, rfl, hmore⟩ | ⟨-, hmore⟩ := read_cases h
  · exact .char (by decide) (.char (by decide) hmore.grouped)
  · exact .char (by decide) hmore.grouped
  · exact hmore.grouped

/-- A text that a pattern is read from is a single token. -/
theorem scan_of_read (h : read text = .ok q) : Token.scan text = .ok [⟨.pattern, text, 0⟩] := by
  have hgrouped := grouped_of_read h
  have hne : text ≠ [] := by
    rintro rfl
    exact absurd h (by simp [read])
  obtain ⟨limit, hlimit⟩ := Nat.exists_eq_add_one.mpr (List.length_pos_iff.mpr hne)
  have hscan := Token.scanFrom_literal (hgrouped.mono fun _ => isLiteralChar_of_isPatternChar) hne
    stopsBefore_nil limit 0
  rw [List.append_nil, literalKind_of_grouped hgrouped] at hscan
  rw [Token.scan, hlimit, hscan]
  cases limit <;> rfl

end Pattern

/-! ## As expressions -/

namespace Expression

/-- A single token of a pattern is read as the pattern. -/
theorem readTokens_pattern {token : Token} {p : Pattern} (hkind : token.kind = .pattern)
    (hread : Pattern.read token.chars = .ok p) : readTokens [token] = .ok (ofPattern p) := by
  have hleaf : readLeaf token = .ok (.pattern p) := by
    rw [readLeaf, hkind]
    simp only [hread]
  have hoperand : Derives .operand [token] (.leaf (.pattern p)) := .leaf (Or.inl hkind) hleaf
  have hsigned : Derives .complement ([] ++ [token]) (.signed 0 (.leaf (.pattern p))) :=
    .signed nofun hoperand
  have hderives : Derives (.chain .union) [token] (.signed 0 (.leaf (.pattern p))) :=
    .first (.first (.first (.first hsigned)))
  have hnotEmpty : p.isEmpty = false := (Pattern.wellFormed_of_read hread).notEmpty
  refine readTokens_eq_ok_iff.mpr (Or.inr ⟨_, hderives, Nat.zero_le _, Nat.zero_le _, ?_⟩)
  rw [ofPattern, hnotEmpty]
  rfl

/-- A text of a pattern is a single token, and as an expression it is the pattern, whatever
stands in its brackets and braces. -/
theorem parse_of_parse_pattern {text : String} {p : Pattern} (h : Pattern.parse text = .ok p) :
    Token.scan text.toList = .ok [⟨.pattern, text.toList, 0⟩] ∧
      Expression.parse text = .ok (ofPattern p) := by
  have hread : Pattern.read text.toList = .ok p := mapError_eq_ok.mp h
  have hscan := Pattern.scan_of_read hread
  refine ⟨hscan, ?_⟩
  rw [Expression.parse, hscan]
  exact mapError_eq_ok.mpr (readTokens_pattern rfl hread)

/-- Blanks, operators, closing brackets and braces and an escaped quote stand in the quoted
text of a predicate, and blanks around it. -/
theorem parse_of_parse_pattern_quoted :
    let text := "/a[!x-z]\x7b kind:\"~( \\\" ] \x7d & -\" \x7d//b"
    let condition := Predicate.call ⟨.colon, "kind", [⟨none, .word "~( \" ] \x7d & -"⟩]⟩
    let p : Pattern :=
      { base := .root,
        components := [.glob "a[!x-z]" (some condition), .stretch, .named "b" none] }
    Pattern.parse text = .ok p ∧ Token.scan text.toList = .ok [⟨.pattern, text.toList, 0⟩] ∧
      Expression.parse text = .ok (of (.leaf (.pattern p))) := by
  intro text condition p
  have hparse : Pattern.parse text = .ok p := by decide +kernel
  exact ⟨hparse, parse_of_parse_pattern hparse⟩

end Expression

end PathSets
