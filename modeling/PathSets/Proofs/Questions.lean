import PathSets.Proofs.AnchoredReferences
import PathSets.Proofs.SubstitutionAlgebra

/-!
# The questions that resolving asks

The callback that answers references may keep a state, so it matters how often it is asked,
and in which order.  `Questions` says what it should be asked for a row of references: each
of them in turn, and directly after it what its answer refers to.  There is one such
sequence of questions (`Questions.unique`).

`noting` is a callback that also notes down what it is asked, which changes nothing else
(`Expression.resolve_noting`).  What is noted while an expression is resolved are just the
questions for its references (`Expression.resolve_asks`): every occurrence of a reference is
asked for once, from left to right, whether or not an operation folds it away afterwards.
-/

namespace PathSets

variable {σ : Type} {ask : Reference → StateM σ Expression} {s middle last : σ}
  {x : Reference} {xs ys asked more : List Reference} {e result : Expression}

/-! ## Rows of questions -/

/-- The questions for a row of references from some state on, and the state that the
callback is in after them. -/
inductive Questions (ask : Reference → StateM σ Expression) :
    List Reference → σ → List Reference → σ → Prop
  | done (s : σ) : Questions ask [] s [] s
  | next {x : Reference} {xs inner rest : List Reference} {s middle last : σ}
      (hanswer : Questions ask (ask x s).1.references (ask x s).2 inner middle)
      (hrest : Questions ask xs middle rest last) :
      Questions ask (x :: xs) s (x :: (inner ++ rest)) last

namespace Questions

theorem unique {other : List Reference} {final : σ} (h : Questions ask xs s asked last)
    (hother : Questions ask xs s other final) : other = asked ∧ final = last := by
  induction h generalizing other final with
  | done s =>
    cases hother
    exact ⟨rfl, rfl⟩
  | next _ _ ihAnswer ihRest =>
    cases hother with
    | next hanswer hrest =>
      obtain ⟨rfl, rfl⟩ := ihAnswer hanswer
      obtain ⟨rfl, rfl⟩ := ihRest hrest
      exact ⟨rfl, rfl⟩

theorem append (h : Questions ask xs s asked middle) (hmore : Questions ask ys middle more last) :
    Questions ask (xs ++ ys) s (asked ++ more) last := by
  induction h with
  | done s => exact hmore
  | next hanswer _ _ ih =>
    have hrest := hanswer.next (ih hmore)
    rwa [← List.append_assoc] at hrest

theorem singleton (h : Questions ask (ask x s).1.references (ask x s).2 asked last) :
    Questions ask [x] s (x :: asked) last := by
  have hnext := h.next (.done last)
  rwa [List.append_nil] at hnext

end Questions

/-! ## Noting questions down -/

/-- The callback, with a note of what it is asked. -/
def noting (ask : Reference → StateM σ Expression) (x : Reference) :
    StateM (List Reference × σ) Expression := fun (noted, s) =>
  ((ask x s).1, (noted ++ [x], (ask x s).2))

/-- What stands in the place of a leaf when an expression is resolved. -/
def Leaf.resolve (ask : Reference → StateM σ Expression) (times : Nat) : Leaf → StateM σ Expression
  | pattern p => pure (.of (.leaf (.pattern p)))
  | reference r => do Expression.resolve ask times (← ask r)

namespace Expression

theorem resolve_succ (ask : Reference → StateM σ Expression) (times : Nat) (e : Expression) :
    e.resolve ask (times + 1) = e.mapLeavesM (Leaf.resolve ask times) := by
  rw [Expression.resolve]
  refine congrArg (fun f => e.mapLeavesM f) (funext fun l => ?_)
  cases l <;> rfl

theorem resolve_complement (ask : Reference → StateM σ Expression) (times : Nat) (t : Tree)
    (s : σ) :
    resolve ask (times + 1) (of (.complement t)) s =
      let found := resolve ask (times + 1) (of t) s
      (found.1.complement, found.2) := rfl

/-- The left operand comes first, and the right one goes on from its state. -/
theorem resolve_binary (ask : Reference → StateM σ Expression) (times : Nat) (op : Operator)
    (l r : Tree) (s : σ) :
    resolve ask (times + 1) (of (.binary op l r)) s =
      let left := resolve ask (times + 1) (of l) s
      let right := resolve ask (times + 1) (of r) left.2
      (combine op left.1 right.1, right.2) := rfl

/-- Notes change neither what is found for the leaves nor the state. -/
theorem mapLeavesM_noting {f : Leaf → StateM σ Expression}
    {g : Leaf → StateM (List Reference × σ) Expression}
    (h : ∀ l noted s, f l s = ((g l (noted, s)).1, (g l (noted, s)).2.2))
    (e : Expression) (noted : List Reference) (s : σ) :
    e.mapLeavesM f s = ((e.mapLeavesM g (noted, s)).1, (e.mapLeavesM g (noted, s)).2.2) := by
  cases e with
  | nothing => rfl
  | of t =>
    simp only [mapLeavesM]
    induction t generalizing noted s with
    | leaf l => exact h l noted s
    | complement operand ih =>
      show ((operand.mapLeavesM f s).1.complement, (operand.mapLeavesM f s).2) = _
      rw [ih noted s]
      rfl
    | binary op left right ihLeft ihRight =>
      let found := left.mapLeavesM g (noted, s)
      show (combine op (left.mapLeavesM f s).1 (right.mapLeavesM f (left.mapLeavesM f s).2).1,
        (right.mapLeavesM f (left.mapLeavesM f s).2).2) = _
      rw [ihLeft noted s, ihRight found.2.1 found.2.2]
      rfl

/-- Notes do not change what an expression resolves to. -/
theorem resolve_noting (ask : Reference → StateM σ Expression) (times : Nat) (e : Expression)
    (noted : List Reference) (s : σ) :
    e.resolve ask times s =
      ((e.resolve (noting ask) times (noted, s)).1,
        (e.resolve (noting ask) times (noted, s)).2.2) := by
  induction times generalizing e noted s with
  | zero => rfl
  | succ times ih =>
    rw [resolve_succ, resolve_succ]
    refine mapLeavesM_noting (fun l noted s => ?_) e noted s
    cases l with
    | pattern p => rfl
    | reference r => exact ih (ask r s).1 (noted ++ [r]) (ask r s).2

/-! ## What is asked -/

/-- Resolving the expression from a state ends, and asks the questions for its
references. -/
structure Asks (ask : Reference → StateM σ Expression) (e : Expression) (s : σ)
    (asked : List Reference) (result : Expression) (last : σ) : Prop where
  questions : Questions ask e.references s asked last
  complete : result.references = []
  run : ∃ enough, ∀ times, enough ≤ times → ∀ noted,
    e.resolve (noting ask) times (noted, s) = (result, (noted ++ asked, last))

theorem asks_nothing (ask : Reference → StateM σ Expression) (s : σ) :
    Asks ask nothing s [] nothing s where
  questions := .done s
  complete := rfl
  run := by
    refine ⟨0, fun times _ noted => ?_⟩
    rw [List.append_nil]
    cases times <;> rfl

theorem asks_pattern (ask : Reference → StateM σ Expression) (p : Pattern) (s : σ) :
    Asks ask (of (.leaf (.pattern p))) s [] (of (.leaf (.pattern p))) s where
  questions := .done s
  complete := rfl
  run := by
    refine ⟨0, fun times _ noted => ?_⟩
    rw [List.append_nil]
    cases times <;> rfl

/-- A reference is asked for before what its answer refers to. -/
theorem Asks.reference (h : Asks ask (ask x s).1 (ask x s).2 asked result last) :
    Asks ask (of (.leaf (.reference x))) s (x :: asked) result last where
  questions := h.questions.singleton
  complete := h.complete
  run := by
    obtain ⟨enough, henough⟩ := h.run
    refine ⟨enough + 1, fun times htimes noted => ?_⟩
    obtain ⟨rest, rfl⟩ : ∃ rest, times = rest + 1 := ⟨times - 1, by omega⟩
    have hnext := henough rest (by omega) (noted ++ [x])
    rwa [List.append_assoc] at hnext

theorem Asks.complement {t : Tree} (h : Asks ask (of t) s asked result last) :
    Asks ask (of (.complement t)) s asked result.complement last where
  questions := h.questions
  complete := (references_complement result).trans h.complete
  run := by
    obtain ⟨enough, henough⟩ := h.run
    refine ⟨enough + 1, fun times htimes noted => ?_⟩
    obtain ⟨rest, rfl⟩ : ∃ rest, times = rest + 1 := ⟨times - 1, by omega⟩
    rw [resolve_complement, henough (rest + 1) (by omega)]

/-- The right operand is asked about after the left one, also where the operation folds one
of them away. -/
theorem Asks.binary {l r : Tree} {other : Expression} (op : Operator)
    (hleft : Asks ask (of l) s asked result middle)
    (hright : Asks ask (of r) middle more other last) :
    Asks ask (of (.binary op l r)) s (asked ++ more) (combine op result other) last where
  questions := by
    rw [references_append (e := of (.binary op l r)) rfl]
    exact hleft.questions.append hright.questions
  complete := by
    rw [references_combine, hleft.complete, hright.complete, List.append_nil, ite_self]
  run := by
    obtain ⟨enough, henough⟩ := hleft.run
    obtain ⟨further, hfurther⟩ := hright.run
    refine ⟨max enough further + 1, fun times htimes noted => ?_⟩
    obtain ⟨rest, rfl⟩ : ∃ rest, times = rest + 1 := ⟨times - 1, by omega⟩
    rw [resolve_binary, henough (rest + 1) (by omega)]
    dsimp only
    rw [hfurther (rest + 1) (by omega), List.append_assoc]

/-- Resolving an expression ends if it does for the answers to its references, whatever
state they are given in. -/
theorem exists_asks (e : Expression)
    (h : ∀ x ∈ e.references, ∀ s, ∃ asked result last,
      Asks ask (ask x s).1 (ask x s).2 asked result last) (s : σ) :
    ∃ asked result last, Asks ask e s asked result last := by
  cases e with
  | nothing => exact ⟨_, _, _, asks_nothing ask s⟩
  | of t =>
    induction t generalizing s with
    | leaf l =>
      cases l with
      | pattern p => exact ⟨_, _, _, asks_pattern ask p s⟩
      | reference x =>
        obtain ⟨asked, result, last, hasks⟩ := h x (List.mem_singleton.mpr rfl) s
        exact ⟨_, _, _, hasks.reference⟩
    | complement operand ih =>
      obtain ⟨asked, result, last, hasks⟩ := ih s h
      exact ⟨_, _, _, hasks.complement⟩
    | binary op left right ihLeft ihRight =>
      rw [references_append (e := of (.binary op left right)) rfl] at h
      obtain ⟨asked, result, middle, hleft⟩ :=
        ihLeft s fun x hx => h x (List.mem_append_left _ hx)
      obtain ⟨more, other, last, hright⟩ :=
        ihRight middle fun x hx => h x (List.mem_append_right _ hx)
      exact ⟨_, _, _, hleft.binary op hright⟩

/-- Whether the first reference may come of the second, in the answer from some state. -/
def MayComeOf (ask : Reference → StateM σ Expression) (y x : Reference) : Prop :=
  ∃ s, y ∈ (ask x s).1.references

/-- The answer to a reference can be resolved from any state, if the reference does not
lead to others for ever. -/
theorem exists_asks_of_acc (h : Acc (MayComeOf ask) x) (s : σ) :
    ∃ asked result last, Asks ask (ask x s).1 (ask x s).2 asked result last := by
  induction h generalizing s with
  | intro x _ ih => exact exists_asks _ (fun y hy => ih y ⟨s, hy⟩) _

/-- Resolving an acyclic expression asks for its references in turn, and for each of them
directly before what its answer refers to.  No other questions are asked, the number of
times that resolving may go on does not matter once it is enough, and no reference is
left. -/
theorem resolve_asks (h : e.Acyclic (MayComeOf ask)) (s : σ) :
    ∃ asked result last, Questions ask e.references s asked last ∧
      (∀ other final, Questions ask e.references s other final →
        other = asked ∧ final = last) ∧
      result.references = [] ∧
      ∃ enough, ∀ times, enough ≤ times →
        e.resolve ask times s = (result, last) ∧
        e.resolve (noting ask) times ([], s) = (result, (asked, last)) := by
  obtain ⟨asked, result, last, hasks⟩ :=
    exists_asks e (fun x hx s => exists_asks_of_acc (h x hx) s) s
  obtain ⟨enough, henough⟩ := hasks.run
  refine ⟨asked, result, last, hasks.questions, fun other final hother =>
    hasks.questions.unique hother, hasks.complete, enough, fun times htimes => ?_⟩
  have hrun := henough times htimes []
  refine ⟨?_, hrun⟩
  rw [resolve_noting ask times e [] s, hrun]

/-- A callback that counts the questions and answers `%:outer` by `%:inner`, and `%:inner` by
`/x` the first time only.  In `%:outer & %:missing - %:outer`, where `%:missing` stands for
nothing, everything is folded away, but every occurrence has been asked for. -/
theorem resolve_asks_of_folding :
    let outer := Reference.named "outer"
    let inner := Reference.named "inner"
    let missing := Reference.named "missing"
    let ask (x : Reference) : StateM Nat Expression := fun count =>
      (if x = outer then ofReference inner
        else if x = inner && count < 2 then ofPattern (.ofPath ⟨.absolute, ["x"], none⟩)
        else nothing,
        count + 1)
    let e := combine .difference (combine .intersection (ofReference outer) (ofReference missing))
      (ofReference outer)
    e.Acyclic (MayComeOf ask) ∧ e.references = [outer, missing, outer] ∧
      e.resolve ask 2 0 = (nothing, 5) ∧
      ∃ result enough, ∀ times, enough ≤ times →
        e.resolve ask times 0 = (result, 5) ∧
        e.resolve (noting ask) times ([], 0) =
          (result, ([outer, inner, missing, outer, inner], 5)) := by
  intro outer inner missing ask e
  have hends : e.Acyclic (MayComeOf ask) := by
    refine acyclic_of_leading (· = outer) ?_ e
    rintro x y ⟨count, hy⟩
    simp only [ask] at hy
    split at hy
    · next hx =>
      obtain rfl := List.mem_singleton.mp hy
      exact ⟨hx, by decide⟩
    · split at hy <;> exact absurd (show y ∈ [] from hy) (by simp)
  have hplain : ∀ x count, (ask x count).1.references = [] →
      Questions ask [x] count [x] (count + 1) := by
    intro x count hnone
    refine .singleton ?_
    rw [hnone]
    exact .done (count + 1)
  have houter : ∀ count, Questions ask [outer] count [outer, inner] (count + 2) := by
    intro count
    refine .singleton (hplain inner (count + 1) ?_)
    by_cases hcount : count + 1 < 2
    · simp only [ask, hcount]
      rfl
    · simp only [ask, hcount]
      rfl
  have hquestions : Questions ask e.references 0 [outer, inner, missing, outer, inner] 5 :=
    (houter 0).append ((hplain missing 2 rfl).append (houter 3))
  obtain ⟨asked, result, last, -, hunique, -, enough, henough⟩ := resolve_asks hends 0
  obtain ⟨rfl, rfl⟩ := hunique _ _ hquestions
  exact ⟨hends, rfl, rfl, result, enough, henough⟩

end Expression

end PathSets
