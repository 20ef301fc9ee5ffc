import PathSets.Proofs.VerdictAlgebra

/-!
# What substitution means

The meaning of an expression at a path is a proposition: a pattern says that it matches
the path on its own, a reference says what is assumed of it (`Leaf.HoldsGiven`), and the
operators are the Boolean operations.  Propositions obey the laws that the operations on
expressions use (`lawful_truth`), so an expression with others in the places of its
references means what it means if each reference says what stands in its place
(`Expression.means_substitute`).

For `resolve` it has to be shown besides that it ends.  `Expression.ResolvesTo` is what it
gives if it is told often enough, and there is such an expression if the references that
are asked for (`Expression.Asked`) do not depend on each other for ever.
-/

namespace PathSets

/-! ## The meaning of an expression at a path -/

/-- Whether a pattern on its own matches the path.  One that cannot be compiled does
not. -/
def Pattern.MatchesAlone (library : Library) (q : Pattern) (p : Path) : Prop :=
  ∃ ev, Evaluator.ofExpression library (.of (.leaf (.pattern q))) = .ok ev ∧
    (ev.matchPath p).matched = true

/-- What a leaf says of a path, given what the references say. -/
def Leaf.HoldsGiven (library : Library) (p : Path) (given : Reference → Prop) : Leaf → Prop
  | pattern q => q.MatchesAlone library p
  | reference r => given r

/-- Propositions for the leaves, and the operators as Boolean operations. -/
def truth (reading : Leaf → Prop) : Interpretation Prop where
  leaf := reading
  nothing := False
  everything := True
  complement := Not
  combine := Operator.Holds

variable {library : Library} {p : Path} {given : Reference → Prop}

theorem Expression.means_eq_value (reading : Leaf → Prop) (e : Expression) :
    e.Means reading = e.value (truth reading) := by
  cases e with
  | nothing => rfl
  | of t =>
    simp only [Means, value]
    induction t with
    | leaf l => rfl
    | complement operand ih => rw [Tree.Means, ih]; rfl
    | binary op left right ihLeft ihRight => rw [Tree.Means, ihLeft, ihRight]; rfl

/-- A pattern that can be compiled goes by the verdict of its automaton. -/
theorem Pattern.matchesAlone_iff {q : Pattern} (hq : (Leaf.pattern q).Compiles library)
    (hp : p.isAbsolute = true) :
    q.MatchesAlone library p ↔ ((Leaf.pattern q).verdict library p).matched = true := by
  have hleaf : ∀ x ∈ (Expression.of (.leaf (.pattern q))).leaves, x.Compiles library := by
    intro x hx
    obtain rfl := List.mem_singleton.mp hx
    exact hq
  obtain ⟨ev, hev⟩ := Expression.exists_evaluator_iff.mpr hleaf
  have hvalue : ev.matchPath p = (Leaf.pattern q).verdict library p :=
    Evaluator.matchPath_eq_value hev hp
  rw [← hvalue]
  constructor
  · rintro ⟨ev', hev', hmatched⟩
    have hsame : ev = ev' := Except.ok.inj (hev.symm.trans hev')
    rwa [hsame]
  · intro hmatched
    exact ⟨ev, hev, hmatched⟩

theorem Tree.matched_value_iff {t : Tree} (h : ∀ l ∈ t.leaves, l.Compiles library)
    (hp : p.isAbsolute = true) :
    (t.value (verdicts library p)).matched = true ↔ t.Means (Leaf.HoldsGiven library p given) := by
  induction t with
  | leaf l =>
    have hl := h l (by simp [leaves])
    cases l with
    | pattern q => exact (Pattern.matchesAlone_iff hl hp).symm
    | reference r => exact hl.elim
  | complement operand ih =>
    have hoperand := ih h
    rw [Means, ← hoperand, value]
    simp [verdicts]
  | binary op left right ihLeft ihRight =>
    have hleft := ihLeft fun l hl => h l (List.mem_append_left _ hl)
    have hright := ihRight fun l hl => h l (List.mem_append_right _ hl)
    rw [Means, ← hleft, ← hright]
    exact op.matched_iff _ _

/-- An evaluator decides the meaning of its expression: it combines what the patterns
match on their own. -/
theorem Evaluator.matched_iff_means {e : Expression} {ev : Evaluator}
    (h : ofExpression library e = .ok ev) (hp : p.isAbsolute = true) :
    (ev.matchPath p).matched = true ↔ e.Means (Leaf.HoldsGiven library p given) := by
  have hcompiles := Expression.exists_evaluator_iff.mp ⟨ev, h⟩
  rw [matchPath_eq_value h hp]
  cases e with
  | nothing => simp [Expression.value, verdicts, Verdict.always, Expression.Means]
  | of t => exact Tree.matched_value_iff hcompiles hp

/-- `//` matches every path. -/
theorem Leaf.holdsGiven_of_isEverything {l : Leaf} (hp : p.isAbsolute = true)
    (h : (Tree.leaf l).isEverything = true) : l.HoldsGiven library p given := by
  have hmatched : (l.verdict library p).matched = true :=
    congrArg Verdict.matched (Leaf.verdict_of_isEverything h)
  obtain ⟨q, heq, -, hcomponents⟩ := Tree.exists_pattern_of_isEverything h
  obtain rfl := Tree.leaf.inj heq
  have hcompiles := Automaton.ofPattern_stretch library hcomponents
  exact (Pattern.matchesAlone_iff ⟨_, hcompiles⟩ hp).mpr hmatched

theorem Operator.holds_of_isUnion {op : Operator} (h : op.isUnion = true) : op.Holds = Or := by
  obtain rfl | rfl := Operator.isUnion_iff.mp h <;> rfl

/-- Propositions obey the laws that the operations on expressions use. -/
theorem lawful_truth {reading : Leaf → Prop}
    (h : ∀ l, (Tree.leaf l).isEverything = true → reading l) :
    (truth reading).Lawful (fun _ => True) (fun _ => True) where
  everything_mem := trivial
  leaf_everything _ heverything := eq_true (h _ heverything)
  good_leaf _ := trivial
  good_nothing := trivial
  good_complement _ := trivial
  good_combine _ _ _ _ _ := trivial
  complement_nothing := not_false_eq_true
  complement_everything := not_true_eq_false
  complement_complement _ := propext Classical.not_not
  nothing_intersect _ := false_and _
  intersect_nothing _ := and_false _
  everything_intersect _ := true_and _
  intersect_everything _ := and_true _
  nothing_subtract _ := false_and _
  subtract_nothing _ := by simp [truth, Operator.Holds]
  subtract_everything _ := by simp [truth, Operator.Holds]
  everything_subtract _ := true_and _
  nothing_unite hunion _ := by
    simp only [truth, Operator.holds_of_isUnion hunion, false_or]
  unite_nothing hunion _ := by
    simp only [truth, Operator.holds_of_isUnion hunion, or_false]
  unite_assoc hunion _ _ _ := by
    simp only [truth, Operator.holds_of_isUnion hunion, or_assoc]

/-! ## Putting expressions in the places of references -/

/-- The leaf, or what stands in the place of the reference. -/
def Leaf.substitute (sub : Reference → Expression) : Leaf → Expression
  | pattern q => .of (.leaf (.pattern q))
  | reference r => sub r

namespace Expression

variable {answer sub : Reference → Expression} {e result : Expression} {x : Reference}

/-- The expression with others in the places of its references. -/
def substitute (sub : Reference → Expression) (e : Expression) : Expression :=
  e.mapLeaves (Leaf.substitute sub)

theorem substitute_congr {other : Reference → Expression}
    (h : ∀ x ∈ e.references, sub x = other x) : e.substitute sub = e.substitute other := by
  apply mapLeaves_congr
  intro l hl
  cases l with
  | pattern q => rfl
  | reference r => exact h r (List.mem_filterMap.mpr ⟨_, hl, rfl⟩)

/-- Others in the places of references say what the references said. -/
theorem means_substitute (hp : p.isAbsolute = true) :
    (e.substitute sub).Means (Leaf.HoldsGiven library p given) ↔
      e.Means (Leaf.HoldsGiven library p fun x =>
        (sub x).Means (Leaf.HoldsGiven library p given)) := by
  have heverything : ∀ l, (Tree.leaf l).isEverything = true → l.HoldsGiven library p given :=
    fun _ h => Leaf.holdsGiven_of_isEverything hp h
  have hlawful := lawful_truth heverything
  rw [means_eq_value, means_eq_value, substitute, hlawful.value_mapLeaves fun _ _ _ _ => trivial]
  refine iff_of_eq (Interpretation.value_congr (R := truth _) fun l _ => ?_)
  cases l with
  | pattern q => rfl
  | reference r => exact (means_eq_value _ (sub r)).symm

/-- No reference is left if none is put in. -/
theorem references_substitute (h : ∀ x ∈ e.references, (sub x).references = []) :
    (e.substitute sub).references = [] := by
  have hclosed : Closed fun e => ∀ l ∈ e.leaves, ∃ q, l = .pattern q := closed_leaves ⟨_, rfl⟩
  rw [references_eq_nil_iff]
  apply hclosed.mapLeaves
  intro l hl
  cases l with
  | pattern q =>
    intro x hx
    exact ⟨q, List.mem_singleton.mp hx⟩
  | reference r => exact references_eq_nil_iff.mp (h r (List.mem_filterMap.mpr ⟨_, hl, rfl⟩))

/-! ## Laying over -/

theorem composeOver_eq_substitute (e weaker : Expression) :
    e.composeOver weaker =
      e.substitute fun x => if x.isWeaker then weaker else ofReference x := by
  apply mapLeaves_congr
  intro l _
  cases l <;> rfl

/-! ## Resolving -/

/-- What `resolve` gives with a callback that has no effects. -/
def resolveWith (answer : Reference → Expression) (times : Nat) (e : Expression) : Expression :=
  Id.run (e.resolve (fun x => pure (answer x)) times)

/-- The expression that `resolve` gives however often it is told to, from some number
on. -/
def ResolvesTo (answer : Reference → Expression) (e result : Expression) : Prop :=
  ∃ enough, ∀ times, enough ≤ times → resolveWith answer times e = result

/-- The references that are asked for: those in the expression, and those in the answers
to others. -/
inductive Asked (answer : Reference → Expression) (e : Expression) : Reference → Prop
  | here {x : Reference} (h : x ∈ e.references) : Asked answer e x
  | there {x y : Reference} (hy : Asked answer e y) (h : x ∈ (answer y).references) :
      Asked answer e x

theorem mapLeavesM_id (f : Leaf → Id Expression) (e : Expression) :
    Id.run (e.mapLeavesM f) = e.mapLeaves f := by
  cases e with
  | nothing => rfl
  | of t =>
    simp only [mapLeavesM, mapLeaves]
    induction t with
    | leaf l => rfl
    | complement operand ih => exact congrArg complement ih
    | binary op left right ihLeft ihRight =>
      exact congrArg₂ (combine op) ihLeft ihRight

theorem resolveWith_succ (answer : Reference → Expression) (times : Nat) (e : Expression) :
    resolveWith answer (times + 1) e =
      e.substitute fun x => resolveWith answer times (answer x) := by
  rw [resolveWith, resolve, mapLeavesM_id]
  apply mapLeaves_congr
  intro l _
  cases l <;> rfl

theorem ResolvesTo.unique {other : Expression} (h : ResolvesTo answer e result)
    (hother : ResolvesTo answer e other) : result = other := by
  obtain ⟨enough, henough⟩ := h
  obtain ⟨more, hmore⟩ := hother
  exact (henough (max enough more) (Nat.le_max_left _ _)).symm.trans
    (hmore (max enough more) (Nat.le_max_right _ _))

theorem resolvesTo_nothing (answer : Reference → Expression) :
    ResolvesTo answer nothing nothing := by
  refine ⟨0, fun times _ => ?_⟩
  cases times <;> rfl

/-- What holds of each entry from some number on holds of all of them from some number
on. -/
theorem exists_enough {α : Type} {P : α → Nat → Prop} {xs : List α}
    (h : ∀ x ∈ xs, ∃ enough, ∀ times, enough ≤ times → P x times) :
    ∃ enough, ∀ x ∈ xs, ∀ times, enough ≤ times → P x times := by
  induction xs with
  | nil => exact ⟨0, fun x hx => absurd hx (by simp)⟩
  | cons y ys ih =>
    obtain ⟨first, hfirst⟩ := h y (by simp)
    obtain ⟨others, hothers⟩ := ih fun x hx => h x (by simp [hx])
    refine ⟨max first others, fun x hx times htimes => ?_⟩
    rcases List.mem_cons.mp hx with rfl | hx
    · exact hfirst times (by omega)
    · exact hothers x hx times (by omega)

/-- An expression resolves if the answers to its references do. -/
theorem resolvesTo_substitute
    (h : ∀ x ∈ e.references, ResolvesTo answer (answer x) (sub x)) :
    ResolvesTo answer e (e.substitute sub) := by
  -- One number is enough for all references, and one more for the expression.
  obtain ⟨enough, henough⟩ := exists_enough h
  refine ⟨enough + 1, fun times htimes => ?_⟩
  obtain ⟨rest, rfl⟩ : ∃ rest, times = rest + 1 := ⟨times - 1, by omega⟩
  rw [resolveWith_succ]
  exact substitute_congr fun x hx => henough x hx rest (by omega)

/-- What each of some references resolves to, as one function of the references. -/
theorem exists_substitutes {S : Reference → Prop}
    (h : ∀ x, S x → ∃ result, ResolvesTo answer (answer x) result ∧ result.references = []) :
    ∃ sub : Reference → Expression, ∀ x, S x →
      ResolvesTo answer (answer x) (sub x) ∧ (sub x).references = [] := by
  have htotal : ∀ x, ∃ result, S x →
      ResolvesTo answer (answer x) result ∧ result.references = [] := by
    intro x
    by_cases hx : S x
    · obtain ⟨result, hresult⟩ := h x hx
      exact ⟨result, fun _ => hresult⟩
    · exact ⟨nothing, fun hmem => absurd hmem hx⟩
  exact Classical.skolem.mp htotal

/-- The answers to what is asked for resolve, if no reference depends on others for ever.
The induction is on the reference, whose answer asks for smaller ones. -/
theorem exists_resolvesTo
    (h : WellFounded fun x y : { x // Asked answer e x } => x.1 ∈ (answer y.1).references)
    (y : { x // Asked answer e x }) :
    ∃ result, ResolvesTo answer (answer y.1) result ∧ result.references = [] := by
  induction y using h.induction with
  | _ y ih =>
    obtain ⟨sub, hsub⟩ := exists_substitutes (S := (· ∈ (answer y.1).references))
      fun z hz => ih ⟨z, .there y.2 hz⟩ hz
    refine ⟨(answer y.1).substitute sub, ?_, ?_⟩
    · exact resolvesTo_substitute fun z hz => (hsub z hz).1
    · exact references_substitute fun z hz => (hsub z hz).2

/-! ## Both substitutions -/

/-- Over a weaker expression, `%_` says what the weaker expression says. -/
theorem means_composeOver (hp : p.isAbsolute = true) (e weaker : Expression) :
    (e.composeOver weaker).Means (Leaf.HoldsGiven library p given) ↔
      e.Means (Leaf.HoldsGiven library p fun x =>
        if x.isWeaker then weaker.Means (Leaf.HoldsGiven library p given) else given x) := by
  have hreading : ∀ x : Reference, (if x.isWeaker then weaker else ofReference x).Means
      (Leaf.HoldsGiven library p given) =
        if x.isWeaker then weaker.Means (Leaf.HoldsGiven library p given) else given x := by
    intro x
    split <;> rfl
  rw [composeOver_eq_substitute, means_substitute hp]
  simp only [hreading]

/-- Laying over and resolving mean what they put in the places of references.  Over a
weaker expression, `%_` says what that expression says.  And if the references that are
asked for do not depend on each other for ever, resolving ends, no reference is left, and
every reference says what its answer says when it is resolved; that is nothing if there is
no answer. -/
theorem means_substitution (hp : p.isAbsolute = true) :
    (∀ (e weaker : Expression) (given : Reference → Prop),
        (e.composeOver weaker).Means (Leaf.HoldsGiven library p given) ↔
          e.Means (Leaf.HoldsGiven library p fun x =>
            if x.isWeaker then weaker.Means (Leaf.HoldsGiven library p given) else given x)) ∧
      ∀ (e : Expression) (answer : Reference → Expression),
        (WellFounded fun x y : { x // Asked answer e x } => x.1 ∈ (answer y.1).references) →
        ∃ (resolved : Expression) (sub : Reference → Expression),
          ResolvesTo answer e resolved ∧ resolved.references = [] ∧
          (∀ x, Asked answer e x → ResolvesTo answer (answer x) (sub x) ∧
            (sub x).references = [] ∧ (answer x = nothing → sub x = nothing)) ∧
          ∀ given : Reference → Prop,
            resolved.Means (Leaf.HoldsGiven library p given) ↔
              e.Means (Leaf.HoldsGiven library p fun x =>
                (sub x).Means (Leaf.HoldsGiven library p given)) := by
  refine ⟨fun e weaker given => means_composeOver hp e weaker, fun e answer hwf => ?_⟩
  obtain ⟨sub, hsub⟩ := exists_substitutes (S := Asked answer e)
    fun x hx => exists_resolvesTo hwf ⟨x, hx⟩
  refine ⟨e.substitute sub, sub, ?_, ?_, fun x hx => ?_, fun given => means_substitute hp⟩
  · exact resolvesTo_substitute fun x hx => (hsub x (.here hx)).1
  · exact references_substitute fun x hx => (hsub x (.here hx)).2
  · obtain ⟨hresolves, hreferences⟩ := hsub x hx
    refine ⟨hresolves, hreferences, fun hnothing => ?_⟩
    rw [hnothing] at hresolves
    exact hresolves.unique (resolvesTo_nothing answer)

/-- The expression `~%:a - %:c` at `/x`, where `%:a` stands for `/x %:b`, `%:b` for `/y`
and `%:c` for nothing.  The chain of references ends, and the difference folds away. -/
theorem means_substitution_of_chain :
    let p : Path := ⟨.absolute, ["x"], none⟩
    let pattern (name : String) := ofPattern (.ofPath ⟨.absolute, [name], none⟩)
    let answer (x : Reference) :=
      if x.name = "a" then combine .juxtaposition (pattern "x") (ofReference (.named "b"))
      else if x.name = "b" then pattern "y" else nothing
    let e := combine .difference (ofReference (.named "a")).complement (ofReference (.named "c"))
    p.isAbsolute = true ∧
      (WellFounded fun x y : { x // Asked answer e x } => x.1 ∈ (answer y.1).references) ∧
      resolveWith answer 3 e = (combine .juxtaposition (pattern "x") (pattern "y")).complement ∧
      ∃ (resolved : Expression) (sub : Reference → Expression),
        ResolvesTo answer e resolved ∧ resolved.references = [] ∧
        sub (.named "c") = nothing ∧
        ∀ given : Reference → Prop,
          resolved.Means (Leaf.HoldsGiven .basic p given) ↔
            e.Means (Leaf.HoldsGiven .basic p fun x =>
              (sub x).Means (Leaf.HoldsGiven .basic p given)) := by
  intro p pattern answer e
  have hp : p.isAbsolute = true := rfl
  -- Only `%:a` has references in its answer.
  let rank (x : Reference) : Nat := if x.name = "a" then 1 else 0
  have hrank : ∀ x y, x ∈ (answer y).references → rank x < rank y := by
    intro x y hx
    by_cases hy : y.name = "a"
    · have hreferences : (answer y).references = [.named "b"] := by
        simp only [answer, if_pos hy]
        decide
      rw [hreferences] at hx
      obtain rfl := List.mem_singleton.mp hx
      simp only [rank, if_pos hy]
      decide
    · have hreferences : (answer y).references = [] := by
        simp only [answer, if_neg hy]
        split <;> decide
      rw [hreferences] at hx
      exact absurd hx (by simp)
  have hwf : WellFounded fun x y : { x // Asked answer e x } =>
      x.1 ∈ (answer y.1).references :=
    Subrelation.wf (fun {x y} h => hrank x.1 y.1 h)
      (measure fun x : { x // Asked answer e x } => rank x.1).wf
  obtain ⟨resolved, sub, hresolved, hreferences, hsub, hmeans⟩ :=
    (means_substitution hp).2 e answer hwf
  have hc : Asked answer e (.named "c") := .here (by decide)
  exact ⟨hp, hwf, by decide, resolved, sub, hresolved, hreferences,
    (hsub _ hc).2.2 (by decide), hmeans⟩

end Expression

end PathSets
