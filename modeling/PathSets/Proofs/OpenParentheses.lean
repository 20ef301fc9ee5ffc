import PathSets.Proofs.ExpressionSource
import PathSets.Proofs.TreeDepth

/-!
# Open parentheses

Run as trails, the readers show how many parentheses they have open.  No reader has more than
`maxDepth` groups open at any place, whether it succeeds or not.  Only a call of a predicate opens
one more, for its arguments, and does so within any number of groups.  So there may be 65 open
(`Predicate.open_exceeds_maxDepth_in_call`).

`parse_shallow` puts this together with the depth of what is read.
-/

namespace PathSets

/-- The trail of the reader of expressions. -/
def Expression.trail (tokens : List Token) : Trail Misplaced Expression :=
  readTokens tokens

/-- The trail of the reader of predicates. -/
def Predicate.trail (text : List Char) : Trail (Stop PredicateFault) Predicate :=
  read text

/-- Expressions open groups only. -/
theorem Expression.openCount_arguments {tokens : List Token} {past : List Paren}
    (h : past <+: Token.parens tokens) : openCount past .arguments = 0 := by
  have hnone : .opening .arguments ∉ past := by
    intro hmem
    obtain ⟨token, -, htoken⟩ := List.mem_filterMap.mp (h.subset hmem)
    rw [Token.paren?] at htoken
    split at htoken <;> simp at htoken
  rw [openCount, List.count_eq_zero_of_not_mem hnone, Nat.zero_sub]

/-- Trees that are read from a text are shallow, and so are the predicates of patterns that are
read, alone or in an expression.  On the way the reader of expressions never has more than 64
parentheses open.  That of predicates never has more than 64 groups open and one list of
arguments besides, so it keeps to 64 exactly if no arguments are read within 64 groups.  What
the readers pass are the parentheses of the text, all of them if it is read and otherwise at
least those before the place of the error. -/
theorem parse_shallow (text : String) :
    (∀ e, Expression.parse text = .ok e →
      e.depth ≤ 64 ∧
        ∀ p, .pattern p ∈ e.leaves → ∀ condition ∈ p.conditions, condition.depth ≤ 64) ∧
    (∀ p, Pattern.parse text = .ok p → ∀ condition ∈ p.conditions, condition.depth ≤ 64) ∧
    (∀ p, Predicate.parse text = .ok p → p.depth ≤ 64) ∧
    (∀ tokens, Token.scan text.toList = .ok tokens →
      (Expression.trail tokens).result = Expression.readTokens tokens ∧
      (∀ past, past <+: (Expression.trail tokens).passed →
        openCount past .group + openCount past .arguments ≤ 64) ∧
      ∃ front rest, tokens = front ++ rest ∧
        (Expression.trail tokens).passed = Token.parens front ∧
        (∀ e, Expression.readTokens tokens = .ok e → rest = []) ∧
        ∀ misplaced, Expression.readTokens tokens = .error misplaced →
          ∃ place, rest <:+ place ∧ misplaced.IsAt place) ∧
    (Predicate.trail text.toList).result = Predicate.read text.toList ∧
    (∀ past, past <+: (Predicate.trail text.toList).passed →
      openCount past .group ≤ 64 ∧ openCount past .arguments ≤ 1) ∧
    ((∀ past, past <+: (Predicate.trail text.toList).passed →
        openCount past .group + openCount past .arguments ≤ 64) ↔
      ∀ past, past <+: (Predicate.trail text.toList).passed →
        openCount past .arguments = 1 → openCount past .group < 64) ∧
    ∃ rest, Predicate.Passes text.toList rest (Predicate.trail text.toList).passed ∧
      (∀ p, Predicate.read text.toList = .ok p → rest = []) ∧
      ∀ stop, Predicate.read text.toList = .error stop → rest <:+ stop.rest := by
  refine ⟨fun _ h => Expression.depth_le_of_parse h,
    fun _ h => (Pattern.wellFormed_of_parse h).depth_le,
    fun _ h => (Predicate.wellFormed_of_read (mapError_eq_ok.mp h)).2, fun tokens _ => ?_, ?_⟩
  · have hfollows := Expression.follows_readTokens tokens
    obtain ⟨hopen, rest, ⟨front, htokens, hpassed⟩, hok, herror⟩ := hfollows.exists_rest
    refine ⟨hfollows.result, fun past hpast => ?_, front, rest, htokens, hpassed, hok, herror⟩
    rw [Expression.openCount_arguments (hpassed ▸ hpast)]
    exact hopen past hpast .group
  · have hfollows := Predicate.follows_read text.toList
    obtain ⟨hopen, rest, hpasses, hok, herror⟩ := hfollows.exists_rest
    have hgroups : ∀ past, past <+: (Predicate.trail text.toList).passed →
        openCount past .group ≤ 64 := fun past hpast => hopen past hpast .group
    have harguments : ∀ past, past <+: (Predicate.trail text.toList).passed →
        openCount past .arguments ≤ 1 := fun past hpast => hopen past hpast .arguments
    refine ⟨hfollows.result, fun past hpast => ⟨hgroups past hpast, harguments past hpast⟩,
      forall_congr' fun past => forall_congr' fun hpast => ?_, rest, hpasses, hok, ?_⟩
    · have hgroup := hgroups past hpast
      have hargument := harguments past hpast
      omega
    · intro stop hstop
      obtain ⟨_, hrest, rfl⟩ := herror stop hstop
      exact hrest

/-- What is open where the text is no longer a predicate. -/
example :
    (Predicate.trail "not (a (b(1, 2 c".toList).passed =
      [.opening .group, .opening .group, .opening .arguments] := by
  decide +kernel

/-- A call in as many groups as may be open still opens a parenthesis. -/
theorem Predicate.open_exceeds_maxDepth_in_call :
    let text := List.replicate 64 '(' ++ "a(1)".toList ++ List.replicate 64 ')'
    Predicate.parse (String.ofList text) =
        .ok (.call { style := .paren, name := "a", args := [{ value := .number 1 }] }) ∧
      ∃ past, past <+: (Predicate.trail text).passed ∧
        openCount past .group + openCount past .arguments = 65 := by
  refine ⟨by decide +kernel, List.replicate 64 (.opening .group) ++ [.opening .arguments], ?_⟩
  decide +kernel

end PathSets
