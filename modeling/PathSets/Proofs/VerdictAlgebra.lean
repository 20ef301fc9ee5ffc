import PathSets.Proofs.Constancy
import PathSets.Proofs.ExpressionMeaning
import PathSets.Proofs.Interpretation

/-!
# Verdicts on combined expressions

The verdict on a combined expression, the matched and the constant flag, is a function of
the verdicts on its operands (`Expression.verdictAt_algebra`).  The operations fold
`nothing` and `everything` away and regroup unions, and every search stops at a path of
its own, but neither can be seen in a verdict.

* `Verdict.or_assoc` and its neighbours are the laws of verdicts.
* `Leaf.Compiles` says which leaves can be matched.  An expression can be matched exactly
  if all its leaves can (`Expression.exists_evaluator_iff`).
* `verdicts` gives each leaf the verdict of its automaton after the whole path.  It has
  the laws that the operations on expressions use (`lawful_verdicts`), and the value of an
  expression is the answer of its evaluator (`Evaluator.matchPath_eq_value`).
-/

namespace PathSets

/-! ## Laws of verdicts -/

namespace Verdict

@[simp] theorem complement_complement (v : Verdict) : v.complement.complement = v := by
  simp [complement]

/-- A union is constant true if either side is, and otherwise goes by the flags. -/
theorem or_eq (v w : Verdict) :
    v.or w = if v = .always true ∨ w = .always true then .always true
      else ⟨v.matched || w.matched, v.constant && w.constant⟩ := by
  obtain ⟨vm, vc⟩ := v
  obtain ⟨wm, wc⟩ := w
  cases vm <;> cases vc <;> cases wm <;> cases wc <;> rfl

/-- An intersection is constant false if either side is, and otherwise goes by the
flags. -/
theorem and_eq (v w : Verdict) :
    v.and w = if v = .always false ∨ w = .always false then .always false
      else ⟨v.matched && w.matched, v.constant && w.constant⟩ := by
  obtain ⟨vm, vc⟩ := v
  obtain ⟨wm, wc⟩ := w
  cases vm <;> cases vc <;> cases wm <;> cases wc <;> rfl

theorem or_comm (v w : Verdict) : v.or w = w.or v := by
  simp only [or_eq, Or.comm, Bool.or_comm, Bool.and_comm]

theorem or_assoc (u v w : Verdict) : (u.or v).or w = u.or (v.or w) := by
  obtain ⟨um, uc⟩ := u
  obtain ⟨vm, vc⟩ := v
  obtain ⟨wm, wc⟩ := w
  cases um <;> cases uc <;> cases vm <;> cases vc <;> cases wm <;> cases wc <;> rfl

theorem complement_or (v w : Verdict) :
    (v.or w).complement = v.complement.and w.complement := by
  rw [and_eq_complement_or, complement_complement, complement_complement]

theorem complement_and (v w : Verdict) :
    (v.and w).complement = v.complement.or w.complement := by
  rw [and_eq_complement_or, complement_complement]

theorem and_comm (v w : Verdict) : v.and w = w.and v := by
  rw [and_eq_complement_or, or_comm, ← and_eq_complement_or]

theorem and_assoc (u v w : Verdict) : (u.and v).and w = u.and (v.and w) := by
  rw [and_eq_complement_or, complement_and, or_assoc, ← complement_and,
    ← and_eq_complement_or]

@[simp] theorem always_or (v : Verdict) : (always false).or v = v := by
  obtain ⟨vm, vc⟩ := v
  cases vm <;> cases vc <;> rfl

@[simp] theorem always_and (v : Verdict) : (always true).and v = v := by
  obtain ⟨vm, vc⟩ := v
  cases vm <;> cases vc <;> rfl

end Verdict

namespace Operator

variable {op : Operator}

theorem verdict_of_isUnion (h : op.isUnion = true) : op.verdict = Verdict.or := by
  obtain rfl | rfl := isUnion_iff.mp h <;> rfl

theorem verdict_comm (h : op ≠ .difference) (v w : Verdict) :
    op.verdict v w = op.verdict w v := by
  cases op with
  | intersection => exact Verdict.and_comm v w
  | difference => exact absurd rfl h
  | juxtaposition => exact Verdict.or_comm v w
  | union => exact Verdict.or_comm v w

theorem verdict_assoc (h : op ≠ .difference) (u v w : Verdict) :
    op.verdict (op.verdict u v) w = op.verdict u (op.verdict v w) := by
  cases op with
  | intersection => exact Verdict.and_assoc u v w
  | difference => exact absurd rfl h
  | juxtaposition => exact Verdict.or_assoc u v w
  | union => exact Verdict.or_assoc u v w

end Operator

/-! ## Which expressions can be matched -/

/-- A pattern whose automaton can be built. -/
def Leaf.Compiles (library : Library) : Leaf → Prop
  | pattern q => ∃ a, Automaton.ofPattern library q = .ok a
  | reference _ => False

variable {library : Library} {p : Path}

/-- The automaton of `//`. -/
theorem Automaton.ofPattern_stretch (library : Library) {q : Pattern}
    (h : q.components = [.stretch]) : ofPattern library q = .ok ⟨q.base, [], true⟩ := by
  obtain ⟨base, components, isProperty⟩ := q
  subst h
  rfl

theorem Leaf.compiles_everything : (Leaf.pattern .everything).Compiles library :=
  ⟨_, Automaton.ofPattern_stretch library rfl⟩

namespace Tree

theorem compiles_of_compile {t : Tree} {φ : Formula Automaton}
    (h : t.compile library = .ok φ) : ∀ l ∈ t.leaves, l.Compiles library := by
  induction t generalizing φ with
  | leaf l =>
    intro x hx
    obtain rfl := List.mem_singleton.mp hx
    cases x with
    | reference r => exact absurd h (by simp [compile])
    | pattern q =>
      obtain ⟨a, ha, -⟩ := bind_eq_ok.mp h
      exact ⟨a, mapError_eq_ok.mp ha⟩
  | complement operand ih =>
    obtain ⟨inner, hinner, -⟩ := bind_eq_ok.mp h
    exact ih hinner
  | binary op left right ihLeft ihRight =>
    obtain ⟨l, hl, h⟩ := bind_eq_ok.mp h
    obtain ⟨r, hr, -⟩ := bind_eq_ok.mp h
    intro x hx
    rcases List.mem_append.mp hx with hx | hx
    · exact ihLeft hl x hx
    · exact ihRight hr x hx

theorem exists_compile {t : Tree} (h : ∀ l ∈ t.leaves, l.Compiles library) :
    ∃ φ, t.compile library = .ok φ := by
  induction t with
  | leaf l =>
    have hl := h l (by simp [leaves])
    cases l with
    | reference r => exact hl.elim
    | pattern q =>
      obtain ⟨a, ha⟩ := hl
      exact ⟨.leaf a, by simp [compile, mapError_eq_ok.mpr ha]⟩
  | complement operand ih =>
    obtain ⟨φ, hφ⟩ := ih h
    exact ⟨.complement φ, by simp [compile, hφ]⟩
  | binary op left right ihLeft ihRight =>
    obtain ⟨φ, hφ⟩ := ihLeft fun l hl => h l (List.mem_append_left _ hl)
    obtain ⟨ψ, hψ⟩ := ihRight fun l hl => h l (List.mem_append_right _ hl)
    exact ⟨.binary op φ ψ, by simp [compile, hφ, hψ]⟩

end Tree

namespace Expression

variable {a b c e : Expression} {ev : Evaluator}

theorem references_eq_nil_iff : e.references = [] ↔ ∀ l ∈ e.leaves, ∃ q, l = .pattern q := by
  rw [references, List.filterMap_eq_nil_iff]
  refine forall₂_congr fun l _ => ?_
  cases l with
  | pattern q => simp
  | reference r => simp

theorem hasReferences_of_compiles (h : ∀ l ∈ e.leaves, l.Compiles library) :
    e.hasReferences = false := by
  have hnil : e.references = [] := by
    refine references_eq_nil_iff.mpr fun l hl => ?_
    cases l with
    | pattern q => exact ⟨q, rfl⟩
    | reference r => exact (h _ hl).elim
  simp [hasReferences, hnil]

/-- An evaluator can be built exactly if the automata of all leaves can. -/
theorem exists_evaluator_iff :
    (∃ ev, Evaluator.ofExpression library e = .ok ev) ↔ ∀ l ∈ e.leaves, l.Compiles library := by
  constructor
  · rintro ⟨ev, h⟩
    have hcompile := Evaluator.compile_of_ofExpression h
    cases e with
    | nothing => simp [leaves]
    | of t => exact Tree.compiles_of_compile hcompile
  · intro h
    have hcompile : ∃ φ, e.compile library = .ok φ := by
      cases e with
      | nothing => exact ⟨.nothing, rfl⟩
      | of t => exact Tree.exists_compile h
    obtain ⟨φ, hφ⟩ := hcompile
    exact ⟨⟨e.text, φ⟩, by simp [Evaluator.ofExpression, hasReferences_of_compiles h, hφ]⟩

/-- The operations keep expressions that can be matched. -/
theorem closed_compiles (library : Library) :
    Closed fun e => ∀ l ∈ e.leaves, l.Compiles library :=
  closed_leaves Leaf.compiles_everything

end Expression

/-! ## Verdicts as values -/

/-- The verdict on a leaf at a path.  Leaves without an automaton match nothing. -/
def Leaf.verdict (library : Library) (p : Path) : Leaf → Verdict
  | pattern q =>
    match Automaton.ofPattern library q with
    | .ok a => a.verdict (a.advanceAll p.lineage a.start)
    | .error _ => .always false
  | reference _ => .always false

/-- The verdicts on the leaves at a path, and the operations on verdicts. -/
def verdicts (library : Library) (p : Path) : Interpretation Verdict where
  leaf := Leaf.verdict library p
  nothing := .always false
  everything := .always true
  complement := Verdict.complement
  combine := Operator.verdict

/-- From the root on, `//` matches for good. -/
theorem Leaf.verdict_of_isEverything {l : Leaf} (h : (Tree.leaf l).isEverything = true) :
    l.verdict library p = .always true := by
  obtain ⟨q, heq, hroot, hcomponents⟩ := Tree.exists_pattern_of_isEverything h
  obtain rfl := Tree.leaf.inj heq
  -- The first verdict is constant, and a run never gives another one after that.
  have hstart : Automaton.verdict ⟨q.base, [], true⟩ (Automaton.start ⟨q.base, [], true⟩) =
      .always true := by
    rw [Automaton.start, if_pos hroot]
    rfl
  have hsettles := Automaton.settles_advanceAll
    (Automaton.fits_start ⟨q.base, [], true⟩) p.lineage
  rw [hstart] at hsettles
  rw [Leaf.verdict, Automaton.ofPattern_stretch library hcomponents]
  exact hsettles rfl

/-- Verdicts obey the laws that the operations on expressions use. -/
theorem lawful_verdicts (library : Library) (p : Path) :
    (verdicts library p).Lawful (fun _ => True) (fun _ => True) where
  everything_mem := trivial
  leaf_everything _ h := Leaf.verdict_of_isEverything h
  good_leaf _ := trivial
  good_nothing := trivial
  good_complement _ := trivial
  good_combine _ _ _ _ _ := trivial
  complement_nothing := rfl
  complement_everything := rfl
  complement_complement _ := Verdict.complement_complement _
  nothing_intersect _ := rfl
  intersect_nothing _ := Verdict.and_comm _ _
  everything_intersect _ := Verdict.always_and _
  intersect_everything _ := (Verdict.and_comm _ _).trans (Verdict.always_and _)
  nothing_subtract _ := rfl
  subtract_nothing _ := (Verdict.and_comm _ _).trans (Verdict.always_and _)
  subtract_everything _ := Verdict.and_comm _ _
  everything_subtract _ := Verdict.always_and _
  nothing_unite hunion _ := by
    simp only [verdicts, Operator.verdict_of_isUnion hunion, Verdict.always_or]
  unite_nothing hunion _ := by
    simp only [verdicts, Operator.verdict_of_isUnion hunion]
    rw [Verdict.or_comm, Verdict.always_or]
  unite_assoc hunion _ _ _ := by
    simp only [verdicts, Operator.verdict_of_isUnion hunion, Verdict.or_assoc]

/-- The plain run of a compiled tree gives the tree its value. -/
theorem Tree.verdict_of_compile {t : Tree} {φ : Formula Automaton}
    (h : t.compile library = .ok φ) :
    φ.verdict (fun a => a.verdict (a.advanceAll p.lineage a.start)) =
      t.value (verdicts library p) := by
  induction t generalizing φ with
  | leaf l =>
    cases l with
    | reference r => exact absurd h (by simp [compile])
    | pattern q =>
      obtain ⟨a, ha, h⟩ := bind_eq_ok.mp h
      obtain rfl := Except.ok.inj h
      simp [Formula.verdict, value, verdicts, Leaf.verdict, mapError_eq_ok.mp ha]
  | complement operand ih =>
    obtain ⟨ψ, hψ, h⟩ := bind_eq_ok.mp h
    obtain rfl := Except.ok.inj h
    rw [Formula.verdict, ih hψ]
    rfl
  | binary op left right ihLeft ihRight =>
    obtain ⟨ψ, hψ, h⟩ := bind_eq_ok.mp h
    obtain ⟨χ, hχ, h⟩ := bind_eq_ok.mp h
    obtain rfl := Except.ok.inj h
    rw [Formula.verdict, ihLeft hψ, ihRight hχ]
    rfl

/-- The answer of an evaluator is the value of its expression. -/
theorem Evaluator.matchPath_eq_value {e : Expression} {ev : Evaluator}
    (h : ofExpression library e = .ok ev) (hp : p.isAbsolute = true) :
    ev.matchPath p = e.value (verdicts library p) := by
  have hcompile := compile_of_ofExpression h
  rw [matchPath_eq_plain ev hp, plainVerdict, plainVerdictAfter]
  cases e with
  | nothing =>
    rw [← Except.ok.inj hcompile]
    rfl
  | of t => exact Tree.verdict_of_compile hcompile

/-! ## The algebra of verdicts -/

namespace Expression

variable {a b c e e' : Expression} {op : Operator}

/-- The verdict on a path by the evaluator of an expression, if there is one. -/
def verdictAt (library : Library) (e : Expression) (p : Path) : Except BuildError Verdict := do
  return (← Evaluator.ofExpression library e).matchPath p

/-- Both expressions can be matched, and the path gets the same verdict from both. -/
def SameVerdict (library : Library) (p : Path) (e e' : Expression) : Prop :=
  ∃ v, e.verdictAt library p = .ok v ∧ e'.verdictAt library p = .ok v

theorem verdictAt_eq_value (he : ∀ l ∈ e.leaves, l.Compiles library)
    (hp : p.isAbsolute = true) : e.verdictAt library p = .ok (e.value (verdicts library p)) := by
  obtain ⟨ev, hev⟩ := exists_evaluator_iff.mpr he
  rw [verdictAt, hev, ok_bind, Evaluator.matchPath_eq_value hev hp]
  rfl

theorem value_complement_verdicts (e : Expression) :
    e.complement.value (verdicts library p) = (e.value (verdicts library p)).complement :=
  (lawful_verdicts library p).value_complement fun _ _ => trivial

theorem value_combine_verdicts (op : Operator) (a b : Expression) :
    (combine op a b).value (verdicts library p) =
      op.verdict (a.value (verdicts library p)) (b.value (verdicts library p)) :=
  (lawful_verdicts library p).value_combine op (fun _ _ => trivial) fun _ _ => trivial

theorem verdictAt_complement (ha : ∀ l ∈ a.leaves, l.Compiles library)
    (hp : p.isAbsolute = true) :
    a.complement.verdictAt library p = .ok (a.value (verdicts library p)).complement := by
  rw [verdictAt_eq_value ((closed_compiles library).complement ha) hp,
    value_complement_verdicts]

theorem verdictAt_combine (op : Operator) (ha : ∀ l ∈ a.leaves, l.Compiles library)
    (hb : ∀ l ∈ b.leaves, l.Compiles library) (hp : p.isAbsolute = true) :
    (combine op a b).verdictAt library p =
      .ok (op.verdict (a.value (verdicts library p)) (b.value (verdicts library p))) := by
  rw [verdictAt_eq_value ((closed_compiles library).combine op ha hb) hp, value_combine_verdicts]

/-- Expressions of the same value get the same verdict. -/
theorem sameVerdict_of_value (he : ∀ l ∈ e.leaves, l.Compiles library)
    (he' : ∀ l ∈ e'.leaves, l.Compiles library) (hp : p.isAbsolute = true)
    (h : e.value (verdicts library p) = e'.value (verdicts library p)) :
    SameVerdict library p e e' :=
  ⟨_, verdictAt_eq_value he hp, h ▸ verdictAt_eq_value he' hp⟩

section Laws

variable (ha : ∀ l ∈ a.leaves, l.Compiles library) (hb : ∀ l ∈ b.leaves, l.Compiles library)
  (hc : ∀ l ∈ c.leaves, l.Compiles library) (hp : p.isAbsolute = true)
include ha hb hp

/-- A difference is the intersection with the complement. -/
theorem sameVerdict_difference :
    SameVerdict library p (combine .difference a b) (combine .intersection a b.complement) := by
  have hclosed := closed_compiles library
  refine sameVerdict_of_value (hclosed.combine _ ha hb)
    (hclosed.combine _ ha (hclosed.complement hb)) hp ?_
  rw [value_combine_verdicts, value_combine_verdicts, value_complement_verdicts]
  rfl

theorem sameVerdict_comm (hop : op ≠ .difference) :
    SameVerdict library p (combine op a b) (combine op b a) := by
  have hclosed := closed_compiles library
  refine sameVerdict_of_value (hclosed.combine op ha hb) (hclosed.combine op hb ha) hp ?_
  rw [value_combine_verdicts, value_combine_verdicts, Operator.verdict_comm hop]

/-- The complement of a union is the intersection of the complements. -/
theorem sameVerdict_complement_union (hunion : op.isUnion = true) :
    SameVerdict library p (combine op a b).complement
      (combine .intersection a.complement b.complement) := by
  have hclosed := closed_compiles library
  refine sameVerdict_of_value (hclosed.complement (hclosed.combine op ha hb))
    (hclosed.combine _ (hclosed.complement ha) (hclosed.complement hb)) hp ?_
  simp only [value_complement_verdicts, value_combine_verdicts,
    Operator.verdict_of_isUnion hunion, Verdict.complement_or]
  rfl

/-- The complement of an intersection is the union of the complements. -/
theorem sameVerdict_complement_intersection (hunion : op.isUnion = true) :
    SameVerdict library p (combine .intersection a b).complement
      (combine op a.complement b.complement) := by
  have hclosed := closed_compiles library
  refine sameVerdict_of_value (hclosed.complement (hclosed.combine _ ha hb))
    (hclosed.combine op (hclosed.complement ha) (hclosed.complement hb)) hp ?_
  simp only [value_complement_verdicts, value_combine_verdicts,
    Operator.verdict_of_isUnion hunion]
  exact Verdict.complement_and _ _

include hc

theorem sameVerdict_assoc (hop : op ≠ .difference) :
    SameVerdict library p (combine op (combine op a b) c) (combine op a (combine op b c)) := by
  have hclosed := closed_compiles library
  refine sameVerdict_of_value (hclosed.combine op (hclosed.combine op ha hb) hc)
    (hclosed.combine op ha (hclosed.combine op hb hc)) hp ?_
  simp only [value_combine_verdicts, Operator.verdict_assoc hop]

end Laws

/-- The verdict on a combined expression, with its matched and its constant flag, is a
function of the verdicts on the operands.  Union and intersection commute and associate,
and complements obey De Morgan's laws and cancel, in both flags. -/
theorem verdictAt_algebra {eva evb evc : Evaluator}
    (ha : Evaluator.ofExpression library a = .ok eva)
    (hb : Evaluator.ofExpression library b = .ok evb)
    (hc : Evaluator.ofExpression library c = .ok evc) (hp : p.isAbsolute = true) :
    let v := eva.matchPath p
    let w := evb.matchPath p
    a.complement.verdictAt library p = .ok ⟨!v.matched, v.constant⟩ ∧
      (∀ op : Operator, op.isUnion = true → (combine op a b).verdictAt library p =
        .ok (if v = .always true ∨ w = .always true then .always true
          else ⟨v.matched || w.matched, v.constant && w.constant⟩)) ∧
      (combine .intersection a b).verdictAt library p =
        .ok (if v = .always false ∨ w = .always false then .always false
          else ⟨v.matched && w.matched, v.constant && w.constant⟩) ∧
      SameVerdict library p (combine .difference a b) (combine .intersection a b.complement) ∧
      (∀ op : Operator, op ≠ .difference →
        SameVerdict library p (combine op a b) (combine op b a) ∧
        SameVerdict library p (combine op (combine op a b) c) (combine op a (combine op b c))) ∧
      (∀ op : Operator, op.isUnion = true →
        SameVerdict library p (combine op a b).complement
          (combine .intersection a.complement b.complement) ∧
        SameVerdict library p (combine .intersection a b).complement
          (combine op a.complement b.complement)) ∧
      SameVerdict library p a.complement.complement a := by
  intro v w
  have hA := exists_evaluator_iff.mp ⟨eva, ha⟩
  have hB := exists_evaluator_iff.mp ⟨evb, hb⟩
  have hC := exists_evaluator_iff.mp ⟨evc, hc⟩
  have hv : v = a.value (verdicts library p) := Evaluator.matchPath_eq_value ha hp
  have hw : w = b.value (verdicts library p) := Evaluator.matchPath_eq_value hb hp
  refine ⟨?_, fun op hunion => ?_, ?_, sameVerdict_difference hA hB hp, fun op hop => ?_,
    fun op hunion => ?_, ?_⟩
  · rw [verdictAt_complement hA hp, ← hv]
    rfl
  · rw [verdictAt_combine op hA hB hp, ← hv, ← hw, Operator.verdict_of_isUnion hunion,
      Verdict.or_eq]
  · rw [verdictAt_combine _ hA hB hp, ← hv, ← hw, ← Verdict.and_eq]
    rfl
  · exact ⟨sameVerdict_comm hA hB hp hop, sameVerdict_assoc hA hB hC hp hop⟩
  · exact ⟨sameVerdict_complement_union hA hB hp hunion,
      sameVerdict_complement_intersection hA hB hp hunion⟩
  · have hclosed := closed_compiles library
    refine sameVerdict_of_value (hclosed.complement (hclosed.complement hA)) hA hp ?_
    simp only [value_complement_verdicts, Verdict.complement_complement]

/-- At `/a`, where `//` is constant and `/a/b` is not: their union is constant, their
intersection and their difference are not, though the tree of the one is `/a/b` and that
of the other a complement. -/
theorem verdictAt_algebra_of_everything :
    let b : Expression := of (.leaf (.pattern ⟨⟨.absolute, ["a", "b"], none⟩, [], false⟩))
    let p : Path := ⟨.absolute, ["a"], none⟩
    ∃ eva evb evc, Evaluator.ofExpression .basic everything = .ok eva ∧
      Evaluator.ofExpression .basic b = .ok evb ∧
      Evaluator.ofExpression .basic nothing = .ok evc ∧ p.isAbsolute = true ∧
      eva.matchPath p = .always true ∧ evb.matchPath p = .varying false ∧
      (combine .union everything b).verdictAt .basic p = .ok (.always true) ∧
      (combine .intersection everything b).verdictAt .basic p = .ok (.varying false) ∧
      SameVerdict .basic p (combine .difference everything b)
        (combine .intersection everything b.complement) := by
  intro b p
  have hp : p.isAbsolute = true := rfl
  have ha : Evaluator.ofExpression .basic everything = .ok _ := rfl
  have hb : Evaluator.ofExpression .basic b = .ok _ := rfl
  have hc : Evaluator.ofExpression .basic nothing = .ok _ := rfl
  obtain ⟨-, hunion, hintersection, hdifference, -⟩ := verdictAt_algebra ha hb hc hp
  refine ⟨_, _, _, rfl, rfl, rfl, hp, by decide, by decide, ?_, ?_, hdifference⟩
  · exact (hunion .union rfl).trans (congrArg Except.ok (by decide))
  · exact hintersection.trans (congrArg Except.ok (by decide))

end Expression

end PathSets
