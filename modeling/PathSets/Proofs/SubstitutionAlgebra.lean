import PathSets.Proofs.Composition
import PathSets.Proofs.SubstitutionMeaning

/-!
# Substitution and the algebra

An operation may fold its operands away before the references in them are known, and
substitution may make operands that the operation then folds away.  Either order leads to
the same tree (`Expression.substitute_combine`), because putting expressions in the places
of references is an interpretation that obeys the laws of the algebra.  So both
substitutions distribute over the operations (`Expression.substitution_distributes`).

Resolving goes on through the answers, so it has to be shown to end.  It does for an
expression that is `Expression.Acyclic`, and `Expression.Resolves` says that it ends and what
it gives.

To lay an expression over a weaker one and to resolve the result is the same as to resolve
it with `%_` bound to the weaker one, if `%_` comes from nowhere else
(`Expression.composeOver_resolves`).  The one side puts the weaker expression in as it is
and resolves it together with the rest, the other resolves it on its own.
-/

namespace PathSets.Expression

variable {a b e left right weaker result : Expression} {answer sub : Reference → Expression}
  {x : Reference} {next : Reference → Reference → Prop}

/-! ## Where resolving ends -/

/-- No reference of the expression leads to others for ever. -/
def Acyclic (next : Reference → Reference → Prop) (e : Expression) : Prop :=
  ∀ x ∈ e.references, Acc next x

/-- Whether the first reference comes of the second, as one of those in its answer. -/
def ComesOf (answer : Reference → Expression) (y x : Reference) : Prop :=
  y ∈ (answer x).references

/-- Resolving the expression ends, with a result in which no reference is left. -/
structure Resolves (answer : Reference → Expression) (e result : Expression) : Prop where
  acyclic : e.Acyclic (ComesOf answer)
  resolvesTo : ResolvesTo answer e result
  complete : result.references = []

/-- The operations bring in no references. -/
theorem closed_acyclic (next : Reference → Reference → Prop) : Closed (Acyclic next) := by
  have hiff : Acyclic next = fun e => ∀ l ∈ e.leaves, ∀ x, l = .reference x → Acc next x := by
    funext e
    refine propext ⟨fun h l hl x hx => h x ?_, fun h x hx => ?_⟩
    · exact List.mem_filterMap.mpr ⟨l, hl, by rw [hx]⟩
    · obtain ⟨l, hl, heq⟩ := List.mem_filterMap.mp hx
      cases l with
      | pattern p => exact absurd heq (by simp)
      | reference y => exact h _ hl x (congrArg Leaf.reference (Option.some.inj heq))
  rw [hiff]
  exact closed_leaves nofun

/-- References do not lead to others for ever if each leads to lower ones only. -/
theorem acyclic_of_rank (rank : Reference → Nat) (h : ∀ x y, next y x → rank y < rank x)
    (e : Expression) : e.Acyclic next := fun x _ =>
  (Subrelation.wf (fun {y x} hyx => h x y hyx) (measure rank).wf).apply x

/-- Nor do they if only some lead to others, and none leads to these. -/
theorem acyclic_of_leading (leads : Reference → Prop) [DecidablePred leads]
    (h : ∀ x y, next y x → leads x ∧ ¬ leads y) (e : Expression) : e.Acyclic next := by
  refine acyclic_of_rank (fun x => if leads x then 1 else 0) (fun x y hyx => ?_) e
  obtain ⟨hx, hy⟩ := h x y hyx
  rw [if_pos hx, if_neg hy]
  exact Nat.one_pos

/-- No reference that is asked for leads to others for ever. -/
theorem Acyclic.acc_of_asked (h : e.Acyclic (ComesOf answer)) (hx : Asked answer e x) :
    Acc (ComesOf answer) x := by
  induction hx with
  | here hx => exact h _ hx
  | there _ hx ih => exact ih.inv hx

/-- Resolving an acyclic expression ends. -/
theorem Acyclic.exists_resolves (h : e.Acyclic (ComesOf answer)) :
    ∃ result, Resolves answer e result := by
  have hwf : WellFounded fun x y : { x // Asked answer e x } => x.1 ∈ (answer y.1).references :=
    ⟨fun x => InvImage.accessible Subtype.val (h.acc_of_asked x.2)⟩
  obtain ⟨sub, hsub⟩ := exists_substitutes (S := (· ∈ e.references))
    fun x hx => exists_resolvesTo hwf ⟨x, .here hx⟩
  exact ⟨e.substitute sub, h, resolvesTo_substitute fun x hx => (hsub x hx).1,
    references_substitute fun x hx => (hsub x hx).2⟩

/-- What an acyclic expression resolves to has no references. -/
theorem Acyclic.resolves (h : e.Acyclic (ComesOf answer)) (hresult : ResolvesTo answer e result) :
    Resolves answer e result := by
  obtain ⟨found, hfound⟩ := h.exists_resolves
  obtain rfl := hresult.unique hfound.resolvesTo
  exact hfound

/-! ## Orderly substitution -/

theorem orderly_leaf_substitute (hsub : ∀ x, (sub x).Orderly) {l : Leaf} (hl : l.Orderly) :
    (l.substitute sub).Orderly := by
  cases l with
  | pattern p => exact orderly_leaf hl
  | reference r => exact hsub r

theorem orderly_substitute (he : e.Orderly) (hsub : ∀ x, (sub x).Orderly) :
    (e.substitute sub).Orderly :=
  closed_orderly.mapLeaves fun l hl => orderly_leaf_substitute hsub (he.2 l hl)

theorem orderly_resolveWith (he : e.Orderly) (hanswer : ∀ x, (answer x).Orderly) (times : Nat) :
    (resolveWith answer times e).Orderly := by
  induction times generalizing e with
  | zero => exact he
  | succ times ih =>
    rw [resolveWith_succ]
    exact orderly_substitute he fun x => ih (hanswer x)

/-- What stands in the place of a reference when an expression is laid over another. -/
theorem orderly_overWeaker (hweaker : weaker.Orderly) (x : Reference) :
    (if x.isWeaker then weaker else ofReference x).Orderly := by
  split
  · exact hweaker
  · exact orderly_leaf trivial

/-! ## Substitution distributes -/

/-- Putting in expressions obeys the laws of the algebra. -/
theorem lawful_substitute (hsub : ∀ x, (sub x).Orderly) :
    (rebuilding (Leaf.substitute sub)).Lawful Leaf.Orderly Expression.Orderly :=
  lawful_rebuilding rfl fun _ hl => orderly_leaf_substitute hsub hl

theorem substitute_complement (he : e.Orderly) (hsub : ∀ x, (sub x).Orderly) :
    e.complement.substitute sub = (e.substitute sub).complement := by
  simp only [substitute, mapLeaves_eq_value]
  exact (lawful_substitute hsub).value_complement he.2

theorem substitute_combine (hleft : left.Orderly) (hright : right.Orderly)
    (hsub : ∀ x, (sub x).Orderly) (op : Operator) :
    (combine op left right).substitute sub =
      combine op (left.substitute sub) (right.substitute sub) := by
  simp only [substitute, mapLeaves_eq_value]
  exact (lawful_substitute hsub).value_combine op hleft.2 hright.2

theorem composeOver_complement (he : e.Orderly) (hweaker : weaker.Orderly) :
    e.complement.composeOver weaker = (e.composeOver weaker).complement := by
  simp only [composeOver_eq_substitute]
  exact substitute_complement he (orderly_overWeaker hweaker)

theorem composeOver_combine (hleft : left.Orderly) (hright : right.Orderly)
    (hweaker : weaker.Orderly) (op : Operator) :
    (combine op left right).composeOver weaker =
      combine op (left.composeOver weaker) (right.composeOver weaker) := by
  simp only [composeOver_eq_substitute]
  exact substitute_combine hleft hright (orderly_overWeaker hweaker) op

theorem resolveWith_complement (he : e.Orderly) (hanswer : ∀ x, (answer x).Orderly)
    (times : Nat) :
    resolveWith answer times e.complement = (resolveWith answer times e).complement := by
  cases times with
  | zero => rfl
  | succ times =>
    simp only [resolveWith_succ]
    exact substitute_complement he fun x => orderly_resolveWith (hanswer x) hanswer times

theorem resolveWith_combine (hleft : left.Orderly) (hright : right.Orderly)
    (hanswer : ∀ x, (answer x).Orderly) (op : Operator) (times : Nat) :
    resolveWith answer times (combine op left right) =
      combine op (resolveWith answer times left) (resolveWith answer times right) := by
  cases times with
  | zero => rfl
  | succ times =>
    simp only [resolveWith_succ]
    exact substitute_combine hleft hright
      (fun x => orderly_resolveWith (hanswer x) hanswer times) op

theorem resolves_complement (he : e.Orderly) (hanswer : ∀ x, (answer x).Orderly)
    (h : Resolves answer e result) : Resolves answer e.complement result.complement := by
  refine ((closed_acyclic _).complement h.acyclic).resolves ?_
  obtain ⟨enough, henough⟩ := h.resolvesTo
  refine ⟨enough, fun times htimes => ?_⟩
  rw [resolveWith_complement he hanswer, henough times htimes]

theorem resolves_combine {ra rb : Expression} (ha : a.Orderly) (hb : b.Orderly)
    (hanswer : ∀ x, (answer x).Orderly) (hra : Resolves answer a ra)
    (hrb : Resolves answer b rb) (op : Operator) :
    Resolves answer (combine op a b) (combine op ra rb) := by
  refine ((closed_acyclic _).combine op hra.acyclic hrb.acyclic).resolves ?_
  obtain ⟨enough, henough⟩ := hra.resolvesTo
  obtain ⟨more, hmore⟩ := hrb.resolvesTo
  refine ⟨max enough more, fun times htimes => ?_⟩
  rw [resolveWith_combine ha hb hanswer, henough times (by omega), hmore times (by omega)]

/-- Substitution distributes over the operations, to the same tree: an operation may be
applied before or after `%_` is replaced, and before or after all references are.  If
resolving ends for the operands, it ends for what they are combined to. -/
theorem substitution_distributes (ha : a.Reachable) (hb : b.Reachable) :
    (∀ weaker : Expression, weaker.Reachable →
        a.complement.composeOver weaker = (a.composeOver weaker).complement ∧
        ∀ op, (combine op a b).composeOver weaker =
          combine op (a.composeOver weaker) (b.composeOver weaker)) ∧
      ∀ answer : Reference → Expression, (∀ x, (answer x).Reachable) →
        a.Acyclic (ComesOf answer) → b.Acyclic (ComesOf answer) →
        ∃ ra rb, Resolves answer a ra ∧ Resolves answer b rb ∧
          Resolves answer a.complement ra.complement ∧
          ∀ op, Resolves answer (combine op a b) (combine op ra rb) := by
  have ha := ha.orderly
  have hb := hb.orderly
  refine ⟨fun weaker hweaker => ?_, fun answer hanswer haends hbends => ?_⟩
  · exact ⟨composeOver_complement ha hweaker.orderly, composeOver_combine ha hb hweaker.orderly⟩
  · have hanswer : ∀ x, (answer x).Orderly := fun x => (hanswer x).orderly
    obtain ⟨ra, hra⟩ := haends.exists_resolves
    obtain ⟨rb, hrb⟩ := hbends.exists_resolves
    exact ⟨ra, rb, hra, hrb, resolves_complement ha hanswer hra,
      resolves_combine ha hb hanswer hra hrb⟩

/-- The expressions `%:all` and `~%_`, where `%:all` stands for `~%:rest`, `%_` for `/x`, and
`%:rest` for nothing.  Over `//`, the difference loses its right operand, and resolved it
becomes `// - ~/x`, where two complements cancel. -/
theorem substitution_distributes_of_folding :
    let x := ofPattern (.ofPath ⟨.absolute, ["x"], none⟩)
    let answer (r : Reference) :=
      if r.name = "all" then (ofReference (.named "rest")).complement
      else if r.name = weakerName then x else nothing
    let a := ofReference (.named "all")
    let b := (ofReference .weaker).complement
    (a.Reachable ∧ b.Reachable ∧ everything.Reachable ∧ (∀ r, (answer r).Reachable) ∧
        a.Acyclic (ComesOf answer) ∧ b.Acyclic (ComesOf answer)) ∧
      (combine .difference a b).composeOver everything =
        combine .difference (a.composeOver everything) (b.composeOver everything) ∧
      (combine .difference a b).composeOver everything = a ∧
      resolveWith answer 2 (combine .difference a b) = x ∧
      ∃ ra rb, Resolves answer a ra ∧ Resolves answer b rb ∧
        Resolves answer (combine .difference a b) (combine .difference ra rb) := by
  intro x answer a b
  have hx : x.Reachable := .pattern (.ofPath _)
  have ha : a.Reachable := .reference _
  have hb : b.Reachable := .complement (.reference _)
  have hanswer : ∀ r, (answer r).Reachable := by
    intro r
    simp only [answer]
    split
    · exact .complement (.reference _)
    split
    · exact hx
    · exact .nothing
  -- Only `%:all` has a reference in its answer.
  have hreferences : ∀ r, (answer r).references =
      if r.name = "all" then [.named "rest"] else [] := by
    intro r
    simp only [answer]
    split
    · decide
    · split <;> decide
  have hleads : ∀ r y, ComesOf answer y r → r.name = "all" ∧ ¬ y.name = "all" := by
    intro r y hy
    rw [ComesOf, hreferences] at hy
    split at hy
    · next hr =>
      obtain rfl := List.mem_singleton.mp hy
      exact ⟨hr, by decide⟩
    · exact absurd hy (by simp)
  have hends := acyclic_of_leading _ hleads
  obtain ⟨hover, hresolves⟩ := substitution_distributes ha hb
  obtain ⟨ra, rb, hra, hrb, -, hcombine⟩ := hresolves answer hanswer (hends a) (hends b)
  exact ⟨⟨ha, hb, .everything, hanswer, hends a, hends b⟩,
    (hover everything .everything).2 .difference, by decide, by decide, ra, rb, hra, hrb,
    hcombine .difference⟩

/-! ## Laying over and resolving -/

/-- The answers, with `%_` bound to an expression. -/
def bindWeaker (weaker : Expression) (answer : Reference → Expression) (x : Reference) :
    Expression :=
  if x.isWeaker then weaker else answer x

/-- No `%_` in the answers, so it is asked for only where it stands in the expression. -/
theorem comesOf_bindWeaker (hnone : ∀ x, (answer x).hasWeaker = false) (hx : x.isWeaker = false)
    (h : Acc (ComesOf answer) x) : Acc (ComesOf (bindWeaker weaker answer)) x := by
  induction h with
  | intro x _ ih =>
    refine .intro x fun y hy => ?_
    rw [ComesOf, bindWeaker, hx] at hy
    exact ih y hy (by simpa using List.any_eq_false.mp (hnone x) y hy)

/-- Without `%_` in the expression or the answers, it does not matter what `%_` is bound
to. -/
theorem resolveWith_bindWeaker (hnone : ∀ x, (answer x).hasWeaker = false)
    (he : e.hasWeaker = false) (times : Nat) :
    resolveWith (bindWeaker weaker answer) times e = resolveWith answer times e := by
  induction times generalizing e with
  | zero => rfl
  | succ times ih =>
    rw [resolveWith_succ, resolveWith_succ]
    refine substitute_congr fun x hx => ?_
    have hstrong : x.isWeaker = false := by simpa using List.any_eq_false.mp he x hx
    rw [bindWeaker, hstrong]
    exact ih (hnone x)

/-- One substitution after another puts in what the first puts in, with the second done in
it. -/
theorem substitute_composeOver (he : e.Orderly) (hweaker : weaker.Orderly)
    (hsub : ∀ x, (sub x).Orderly) :
    (e.composeOver weaker).substitute sub =
      e.substitute fun x => if x.isWeaker then weaker.substitute sub else sub x := by
  rw [composeOver_eq_substitute, substitute, substitute, mapLeaves_mapLeaves rfl
    (fun l hl => orderly_leaf_substitute hsub hl)
    (fun l hl => (orderly_leaf_substitute (orderly_overWeaker hweaker) (he.2 l hl)).2)]
  refine mapLeaves_congr fun l _ => ?_
  cases l with
  | pattern p => rfl
  | reference r =>
    rw [Leaf.substitute, Leaf.substitute]
    split <;> rfl

/-- The two sides are the same as soon as the weaker expression has come to its end. -/
theorem resolveWith_composeOver (he : e.Orderly) (hweaker : weaker.Orderly)
    (hanswer : ∀ x, (answer x).Orderly) (hnone : ∀ x, (answer x).hasWeaker = false)
    (hplain : weaker.hasWeaker = false) {times : Nat}
    (hends : resolveWith answer (times + 1) weaker = resolveWith answer times weaker) :
    resolveWith answer (times + 1) (e.composeOver weaker) =
      resolveWith (bindWeaker weaker answer) (times + 1) e := by
  rw [resolveWith_succ, resolveWith_succ, substitute_composeOver he hweaker
    fun x => orderly_resolveWith (hanswer x) hanswer times, ← resolveWith_succ, hends]
  refine substitute_congr fun x _ => ?_
  rw [bindWeaker]
  split
  · exact (resolveWith_bindWeaker hnone hplain times).symm
  · exact (resolveWith_bindWeaker hnone (hnone x) times).symm

/-- Laid over an expression, an expression leads where its own references lead, and those
of the other. -/
theorem acyclic_composeOver (hstrong : ∀ x ∈ e.references, x.isWeaker = false → Acc next x)
    (hweaker : weaker.Acyclic next) : (e.composeOver weaker).Acyclic next := by
  refine (closed_acyclic next).mapLeaves fun l hl => ?_
  cases l with
  | pattern p => exact nofun
  | reference r =>
    show (if r.isWeaker then weaker else ofReference r).Acyclic next
    split
    · exact hweaker
    · next hr =>
      intro y hy
      obtain rfl := List.mem_singleton.mp hy
      exact hstrong y (List.mem_filterMap.mpr ⟨_, hl, rfl⟩) (by simpa using hr)

theorem acyclic_bindWeaker (hnone : ∀ x, (answer x).hasWeaker = false)
    (hplain : weaker.hasWeaker = false)
    (hstrong : ∀ x ∈ e.references, x.isWeaker = false → Acc (ComesOf answer) x)
    (hweaker : weaker.Acyclic (ComesOf answer)) :
    e.Acyclic (ComesOf (bindWeaker weaker answer)) := by
  intro x hx
  by_cases hweak : x.isWeaker = true
  · refine .intro x fun y hy => ?_
    rw [ComesOf, bindWeaker, if_pos hweak] at hy
    exact comesOf_bindWeaker hnone (by simpa using List.any_eq_false.mp hplain y hy) (hweaker y hy)
  · have hstrong' : x.isWeaker = false := by simpa using hweak
    exact comesOf_bindWeaker hnone hstrong' (hstrong x hx hstrong')

/-- To lay an expression over a weaker one and then to resolve it gives the tree that
resolving it with `%_` bound to the weaker one gives, if neither that nor any answer
contains `%_`.  Both end if the references that are named in the two expressions do not
lead to others for ever. -/
theorem composeOver_resolves (he : e.Reachable) (hweaker : weaker.Reachable)
    (hanswer : ∀ x, (answer x).Reachable) (hplain : weaker.hasWeaker = false)
    (hnone : ∀ x, (answer x).hasWeaker = false)
    (hstrong : ∀ x ∈ e.references, x.isWeaker = false → Acc (ComesOf answer) x)
    (hends : weaker.Acyclic (ComesOf answer)) :
    ∃ result, Resolves answer (e.composeOver weaker) result ∧
      Resolves (bindWeaker weaker answer) e result := by
  obtain ⟨result, hresult⟩ := (acyclic_bindWeaker hnone hplain hstrong hends).exists_resolves
  refine ⟨result, (acyclic_composeOver hstrong hends).resolves ?_, hresult⟩
  obtain ⟨last, -, ⟨settled, hsettled⟩, -⟩ := hends.exists_resolves
  obtain ⟨enough, henough⟩ := hresult.resolvesTo
  refine ⟨max settled enough + 1, fun times htimes => ?_⟩
  obtain ⟨rest, rfl⟩ : ∃ rest, times = rest + 1 := ⟨times - 1, by omega⟩
  rw [resolveWith_composeOver he.orderly hweaker.orderly (fun x => (hanswer x).orderly) hnone hplain
    ((hsettled (rest + 1) (by omega)).trans (hsettled rest (by omega)).symm)]
  exact henough (rest + 1) (by omega)

/-- The expression `~%_ & %:all` over `%:none`, where `%:all` stands for `/x %:one`, `%:one`
for `/y`, and `%:none` for nothing.  Its left operand becomes `//` and is folded away. -/
theorem composeOver_resolves_of_folding :
    let pattern (name : String) := ofPattern (.ofPath ⟨.absolute, [name], none⟩)
    let answer (r : Reference) :=
      if r.name = "all" then combine .juxtaposition (pattern "x") (ofReference (.named "one"))
      else if r.name = "one" then pattern "y" else nothing
    let e := combine .intersection (ofReference .weaker).complement (ofReference (.named "all"))
    let weaker := ofReference (.named "none")
    let result := combine .juxtaposition (pattern "x") (pattern "y")
    (e.Reachable ∧ weaker.Reachable ∧ (∀ r, (answer r).Reachable) ∧ weaker.hasWeaker = false ∧
        (∀ r, (answer r).hasWeaker = false) ∧
        (∀ r ∈ e.references, r.isWeaker = false → Acc (ComesOf answer) r) ∧
        weaker.Acyclic (ComesOf answer)) ∧
      resolveWith answer 3 (e.composeOver weaker) = result ∧
      resolveWith (bindWeaker weaker answer) 3 e = result ∧
      ∃ result, Resolves answer (e.composeOver weaker) result ∧
        Resolves (bindWeaker weaker answer) e result := by
  intro pattern answer e weaker result
  have hpattern : ∀ name, (pattern name).Reachable := fun name => .pattern (.ofPath _)
  have he : e.Reachable := .combine _ (.complement (.reference _)) (.reference _)
  have hweaker : weaker.Reachable := .reference _
  have hanswer : ∀ r, (answer r).Reachable := by
    intro r
    simp only [answer]
    split
    · exact .combine _ (hpattern "x") (.reference _)
    split
    · exact hpattern "y"
    · exact .nothing
  -- Only `%:all` has a reference in its answer.
  have hreferences : ∀ r, (answer r).references =
      if r.name = "all" then [.named "one"] else [] := by
    intro r
    simp only [answer]
    split
    · decide
    · split <;> decide
  have hnone : ∀ r, (answer r).hasWeaker = false := by
    intro r
    rw [hasWeaker, hreferences]
    split <;> decide
  have hleads : ∀ r y, ComesOf answer y r → r.name = "all" ∧ ¬ y.name = "all" := by
    intro r y hy
    rw [ComesOf, hreferences] at hy
    split at hy
    · next hr =>
      obtain rfl := List.mem_singleton.mp hy
      exact ⟨hr, by decide⟩
    · exact absurd hy (by simp)
  have hends := acyclic_of_leading _ hleads
  have hstrong : ∀ r ∈ e.references, r.isWeaker = false → Acc (ComesOf answer) r :=
    fun r hr _ => hends e r hr
  exact ⟨⟨he, hweaker, hanswer, rfl, hnone, hstrong, hends weaker⟩, by decide, by decide,
    composeOver_resolves he hweaker hanswer rfl hnone hstrong (hends weaker)⟩

end PathSets.Expression
