import PathSets.Proofs.VerdictAlgebra

/-!
# Why an expression cannot be matched

An evaluator is built from an expression if no reference is left in it, the engine accepts the
regular expression of every glob, and the library has every function that a predicate calls.
Otherwise the building fails, and which error it fails with does not depend on how the
expression is put together, but only on the order in which its text comes
(`Evaluator.ofExpression_decides`).

`Component.faults` lists what is wrong with one component, its glob before the functions that
its predicate calls, and so `Pattern.faults` lists what is wrong with a pattern from left to
right.  Each step of the building fails with the first fault of its part (`FailsFirst`).
-/

namespace PathSets

variable {library : Library}

/-! ## Faults -/

namespace Component

/-- Whether the component is no glob, or one whose regular expression the engine accepts. -/
def HasRegex (library : Library) (c : Component) : Prop :=
  ∀ shape condition, c = .glob shape condition →
    (library.engine.compile? (Glob.toRegexText shape.toList)).isSome = true

/-- The functions that the predicate of the component calls, from left to right. -/
def calls (c : Component) : List String :=
  c.condition?.elim [] Predicate.names

/-- The fault of a glob whose regular expression the engine refuses. -/
def globFaults (library : Library) : Component → List PatternError
  | glob shape _ =>
    if (library.engine.compile? (Glob.toRegexText shape.toList)).isSome then []
    else [.invalidGlob shape]
  | _ => []

/-- What makes a component unfit for matching: its glob, and then the functions that the
library does not have. -/
def faults (library : Library) (c : Component) : List PatternError :=
  c.globFaults library ++ (c.calls.filter fun name => !library.contains name).map .unknownPredicate

theorem globFaults_eq_nil_iff {c : Component} :
    c.globFaults library = [] ↔ c.HasRegex library := by
  cases c with
  | glob shape condition => simp [globFaults, HasRegex, Option.isSome_iff_ne_none]
  | stretch => simp [globFaults, HasRegex]
  | bare condition => simp [globFaults, HasRegex]
  | named name condition => simp [globFaults, HasRegex]

theorem faults_eq_nil_iff {c : Component} :
    c.faults library = [] ↔
      c.HasRegex library ∧ ∀ name ∈ c.calls, library.contains name = true := by
  simp [faults, globFaults_eq_nil_iff]

end Component

/-- What makes a pattern unfit for matching, from left to right. -/
def Pattern.faults (library : Library) (p : Pattern) : List PatternError :=
  p.components.flatMap (·.faults library)

/-- What makes a leaf unfit for matching. -/
def Leaf.faults (library : Library) : Leaf → List BuildError
  | pattern p => (p.faults library).map .pattern
  | reference r => [.incomplete r.text]

/-- The patterns of an expression, from left to right. -/
def Expression.patterns (e : Expression) : List Pattern :=
  e.leaves.filterMap fun
    | .pattern p => some p
    | .reference _ => none

/-! ## Components -/

/-- Linking fails with the first function, from left to right, that the library does not
have. -/
theorem Predicate.failsFirst_link (predicate : Predicate) :
    FailsFirst (predicate.names.filter fun name => !library.contains name)
      (predicate.link library) := by
  induction predicate with
  | call c =>
    cases htest : library.find? c.name with
    | some test => simp [FailsFirst, link, names, Library.contains, htest]
    | none => simp [FailsFirst, link, names, Library.contains, htest]
  | not operand ih => exact ih.bind_ok fun _ => ⟨_, rfl⟩
  | binary op left right ihLeft ihRight =>
    rw [names, List.filter_append]
    exact ihLeft.bind fun _ _ => ihRight.bind_ok fun _ => ⟨_, rfl⟩

theorem Step.failsFirst_linkCondition (condition : Option Predicate) :
    FailsFirst (((condition.elim [] Predicate.names).filter fun name =>
      !library.contains name).map .unknownPredicate) (linkCondition library condition) := by
  cases condition with
  | none => rfl
  | some predicate =>
    exact (predicate.failsFirst_link.mapError _).bind_ok fun _ => ⟨_, rfl⟩

theorem Step.failsFirst_nameTest (c : Component) :
    FailsFirst (c.globFaults library) (nameTest library c) := by
  cases c with
  | glob shape condition =>
    rw [nameTest, Component.globFaults]
    cases library.engine.compile? (Glob.toRegexText shape.toList) <;> rfl
  | stretch => rfl
  | bare condition => rfl
  | named name condition => rfl

theorem Step.failsFirst_ofComponent (afterStretch endsProperty : Bool) (c : Component) :
    FailsFirst (c.faults library) (ofComponent library afterStretch endsProperty c) :=
  (failsFirst_nameTest c).bind fun _ _ =>
    (failsFirst_linkCondition c.condition?).bind_ok fun _ => ⟨_, rfl⟩

/-! ## Patterns and expressions -/

namespace Automaton

theorem failsFirst_stepsOf (isProperty afterStretch : Bool) (components : List Component) :
    FailsFirst (components.flatMap (·.faults library))
      (stepsOf library isProperty afterStretch components) := by
  induction components generalizing afterStretch with
  | nil => rfl
  | cons c components ih =>
    rw [List.flatMap_cons]
    cases hc : c.isStretch with
    | true =>
      obtain rfl := Component.eq_stretch hc
      exact ih true
    | false =>
      rw [stepsOf_cons hc]
      refine (Step.failsFirst_ofComponent _ _ c).bind fun step _ => ?_
      exact (ih false).bind_ok fun _ => ⟨_, rfl⟩

theorem failsFirst_ofPattern (p : Pattern) :
    FailsFirst (p.faults library) (ofPattern library p) :=
  (failsFirst_stepsOf p.isProperty false p.components).bind_ok fun _ => ⟨_, rfl⟩

end Automaton

theorem Tree.failsFirst_compile (t : Tree) :
    FailsFirst (t.leaves.flatMap (·.faults library)) (t.compile library) := by
  induction t with
  | leaf l =>
    rw [leaves, List.flatMap_singleton]
    cases l with
    | pattern p =>
      have hbuild : FailsFirst (p.faults library) (Automaton.ofPattern library p) :=
        Automaton.failsFirst_ofPattern p
      exact (hbuild.mapError BuildError.pattern).bind_ok fun _ => ⟨_, rfl⟩
    | reference r => rfl
  | complement operand ih => exact ih.bind_ok fun _ => ⟨_, rfl⟩
  | binary op left right ihLeft ihRight =>
    rw [leaves, List.flatMap_append]
    exact ihLeft.bind fun _ _ => ihRight.bind_ok fun _ => ⟨_, rfl⟩

namespace Expression

variable {e : Expression}

theorem failsFirst_compile (e : Expression) :
    FailsFirst (e.leaves.flatMap (·.faults library)) (e.compile library) := by
  cases e with
  | nothing => rfl
  | of t => exact t.failsFirst_compile

/-- Where no reference is left, the faults are those of the patterns. -/
theorem flatMap_faults_leaves (h : e.references = []) :
    e.leaves.flatMap (·.faults library) =
      (e.patterns.flatMap (·.faults library)).map .pattern := by
  have hleaves := references_eq_nil_iff.mp h
  rw [patterns]
  generalize e.leaves = leaves at hleaves
  induction leaves with
  | nil => rfl
  | cons l leaves ih =>
    obtain ⟨p, rfl⟩ := hleaves l (by simp)
    have htail := ih fun l hl => hleaves l (List.mem_cons_of_mem _ hl)
    rw [List.flatMap_cons, htail]
    exact List.map_append.symm

end Expression

/-- An evaluator can be built if and only if the expression has no reference, the engine accepts
the regular expressions of all its globs and the library has all functions that its predicates
call.  If it has a reference, the error says so with the text of the expression; otherwise it
is the first fault of its patterns, read from left to right. -/
theorem Evaluator.ofExpression_decides (library : Library) (e : Expression) :
    ((∃ ev, ofExpression library e = .ok ev) ↔
        e.references = [] ∧ ∀ p ∈ e.patterns, ∀ c ∈ p.components,
          c.HasRegex library ∧ ∀ name ∈ c.calls, library.contains name = true) ∧
      ∀ error, ofExpression library e = .error error ↔
        (e.references ≠ [] ∧ error = .incomplete e.text) ∨
          (e.references = [] ∧ ∃ fault,
            (e.patterns.flatMap (·.faults library)).head? = some fault ∧
              error = .pattern fault) := by
  by_cases href : e.references = []
  · have hfails : FailsFirst ((e.patterns.flatMap (·.faults library)).map .pattern)
        (ofExpression library e) := by
      rw [ofExpression, if_neg (by simp [Expression.hasReferences, href]),
        ← Expression.flatMap_faults_leaves href]
      exact (Expression.failsFirst_compile e).bind_ok fun _ => ⟨_, rfl⟩
    refine ⟨?_, fun error => ?_⟩
    · rw [hfails.exists_eq_ok_iff]
      simp [href, Pattern.faults, Component.faults_eq_nil_iff]
    · rw [hfails.eq_error_iff, List.head?_map, Option.map_eq_some_iff]
      simp [href, eq_comm]
  · have herror : ofExpression library e = .error (.incomplete e.text) := by
      rw [ofExpression, if_pos (by simp [Expression.hasReferences, href])]
    refine ⟨iff_of_false ?_ fun h => href h.1, fun error => ?_⟩
    · rintro ⟨ev, hev⟩
      exact absurd (herror.symm.trans hev) (by simp)
    · rw [herror, Except.error.injEq, eq_comm]
      simp [href]

end PathSets
