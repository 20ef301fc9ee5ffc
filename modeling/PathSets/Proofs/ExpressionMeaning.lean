import PathSets.Proofs.PatternMeaning

/-!
# What expressions match

`Expression.Means` reads an expression as a proposition: its leaves by a given
reading, and its operators as the Boolean operations.  `Expression.Matches` reads a
pattern leaf as the pattern matching a path.

An evaluator decides it for every path (`matched_matchPath_iff`).  The verdicts
combine like truth values in spite of their early answers (`Operator.matched_iff`),
so the proof goes leaf by leaf.
-/

namespace PathSets

/-! ## The meaning of an expression -/

/-- An operator as a Boolean operation. -/
def Operator.Holds : Operator → Prop → Prop → Prop
  | intersection, left, right => left ∧ right
  | difference, left, right => left ∧ ¬right
  | juxtaposition, left, right => left ∨ right
  | union, left, right => left ∨ right

/-- What a tree says if its leaves are read by `reading`. -/
def Tree.Means (reading : Leaf → Prop) : Tree → Prop
  | leaf l => reading l
  | complement operand => ¬operand.Means reading
  | binary op left right => op.Holds (left.Means reading) (right.Means reading)

/-- What an expression says if its leaves are read by `reading`. -/
def Expression.Means (reading : Leaf → Prop) : Expression → Prop
  | nothing => False
  | of tree => tree.Means reading

/-- A pattern holds of the paths that it matches.  A reference says nothing. -/
def Leaf.Holds (library : Library) (p : Path) : Leaf → Prop
  | pattern q => q.Matches library p
  | reference _ => False

/-- Whether an expression without references matches an absolute path. -/
def Expression.Matches (library : Library) (e : Expression) (p : Path) : Prop :=
  e.Means (·.Holds library p)

/-! ## Verdicts as truth values -/

namespace Verdict

@[simp] theorem matched_complement (v : Verdict) : v.complement.matched = !v.matched := rfl

/-- An early answer is the Boolean answer. -/
theorem matched_or (v w : Verdict) : (v.or w).matched = (v.matched || w.matched) := by
  obtain ⟨vm, vc⟩ := v
  obtain ⟨wm, wc⟩ := w
  cases vm <;> cases vc <;> cases wm <;> cases wc <;> rfl

theorem matched_and (v w : Verdict) : (v.and w).matched = (v.matched && w.matched) := by
  rw [and_eq_complement_or, matched_complement, matched_or]
  simp

end Verdict

theorem Operator.matched_iff (op : Operator) (v w : Verdict) :
    (op.verdict v w).matched = true ↔ op.Holds (v.matched = true) (w.matched = true) := by
  cases op with
  | intersection => simp [verdict, Holds, Verdict.matched_and]
  | difference => simp [verdict, Holds, Verdict.subtract, Verdict.matched_and]
  | juxtaposition => simp [verdict, Holds, Verdict.matched_or]
  | union => simp [verdict, Holds, Verdict.matched_or]

/-! ## Evaluators -/

/-- A compiled tree matches what the tree says, if its automata match what its leaves
say. -/
theorem Tree.matched_compile {library : Library} {reading : Leaf → Prop}
    {answer : Automaton → Verdict}
    (hleaf : ∀ q a, Automaton.ofPattern library q = .ok a →
      ((answer a).matched = true ↔ reading (.pattern q)))
    {tree : Tree} {formula : Formula Automaton} (h : tree.compile library = .ok formula) :
    (formula.verdict answer).matched = true ↔ tree.Means reading := by
  induction tree generalizing formula with
  | leaf l =>
    cases l with
    | reference r => exact absurd h (by simp [compile])
    | pattern q =>
      obtain ⟨a, ha, h⟩ := bind_eq_ok.mp h
      rw [← Except.ok.inj h]
      exact hleaf q a (mapError_eq_ok.mp ha)
  | complement operand ih =>
    obtain ⟨f, hf, h⟩ := bind_eq_ok.mp h
    rw [← Except.ok.inj h, Formula.verdict, Verdict.matched_complement, Means, ← ih hf]
    simp
  | binary op left right ihl ihr =>
    obtain ⟨f, hf, h⟩ := bind_eq_ok.mp h
    obtain ⟨g, hg, h⟩ := bind_eq_ok.mp h
    rw [← Except.ok.inj h, Formula.verdict, Operator.matched_iff, Means, ihl hf, ihr hg]

/-- An evaluator holds the compiled form of its expression. -/
theorem Evaluator.compile_of_ofExpression {library : Library} {e : Expression}
    {ev : Evaluator} (h : ofExpression library e = .ok ev) :
    e.compile library = .ok ev.formula := by
  unfold ofExpression at h
  split at h
  · exact absurd h (by simp)
  · obtain ⟨formula, hformula, h⟩ := bind_eq_ok.mp h
    rw [← Except.ok.inj h]
    exact hformula

/-- Wherever an evaluator can be built, it matches exactly the absolute paths that the
expression matches. -/
theorem Evaluator.matched_matchPath_iff {library : Library} {e : Expression} {ev : Evaluator}
    (h : ofExpression library e = .ok ev) {p : Path} (hp : p.isAbsolute = true) :
    (ev.matchPath p).matched = true ↔ e.Matches library p := by
  have hcompile := compile_of_ofExpression h
  rw [matchPath_eq_plain ev hp, plainVerdict, plainVerdictAfter]
  cases e with
  | nothing =>
    rw [← Except.ok.inj hcompile]
    simp [Formula.verdict, Verdict.always, Expression.Matches, Expression.Means]
  | of tree =>
    exact Tree.matched_compile (fun q a ha => Automaton.matched_iff_matches ha hp) hcompile

/-- The expression `/a//{isPrimPath} - //b*` matches `/a` itself, by the stretch that
consumes nothing and the predicate that consumes nothing after it. -/
theorem Evaluator.matched_matchPath_iff_at_base :
    let e : Expression := .of (.binary .difference
      (.leaf (.pattern ⟨⟨.absolute, ["a"], none⟩,
        [.stretch, .bare (.call ⟨.bare, "isPrimPath", []⟩)], false⟩))
      (.leaf (.pattern ⟨.root, [.stretch, .glob "b*" none], false⟩)))
    let p : Path := ⟨.absolute, ["a"], none⟩
    ∃ ev, ofExpression .basic e = .ok ev ∧ p.isAbsolute = true ∧
      (ev.matchPath p).matched = true ∧ e.Matches .basic p := by
  intro e p
  have hp : p.isAbsolute = true := rfl
  refine ⟨_, rfl, hp, ?_, ?_⟩
  · decide
  · exact (matched_matchPath_iff (e := e) rfl hp).mp (by decide)

end PathSets
