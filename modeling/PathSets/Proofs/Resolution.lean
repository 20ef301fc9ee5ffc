import PathSets.Config.Reader
import PathSets.Proofs.CycleSearch
import PathSets.Proofs.SubstitutionMeaning

/-!
# Resolving against a table of definitions

`Expression.Unfolds` is the replacement of references without a limit: first the answers
to the references are unfolded, then they are put in.  A derivation of it is the whole
tree of the questions that are asked, so there is one exactly if the replacement ends.

In a table without cycles the questions follow chains of names that do not repeat.  None
of them is longer than the table, and `Definitions.resolve` goes one step further than
that, for references that are not defined (`unfolds_resolveWith`).  Since `%_` is no name
that a configuration may define (`isReferenceName_of_isAccepted`), the chains of questions are
just those that the search for cycles follows.
-/

namespace PathSets

namespace Expression

variable {answer : Reference → Expression} {e result : Expression}

/-- What becomes of an expression when its references are replaced by their answers, in
which the references have been replaced before. -/
inductive Unfolds (answer : Reference → Expression) : Expression → Expression → Prop
  | step {e : Expression} {sub : Reference → Expression}
      (h : ∀ x ∈ e.references, Unfolds answer (answer x) (sub x)) :
      Unfolds answer e (e.substitute sub)

theorem unfolds_nothing (answer : Reference → Expression) : Unfolds answer nothing nothing :=
  have hnone : ∀ x ∈ nothing.references, Unfolds answer (answer x) nothing := nofun
  .step hnone

theorem Unfolds.references (h : Unfolds answer e result) : result.references = [] := by
  induction h with
  | step _ ih => exact references_substitute ih

/-- There is one way to unfold an expression. -/
theorem Unfolds.unique {other : Expression} (h : Unfolds answer e result)
    (hother : Unfolds answer e other) : result = other := by
  induction h generalizing other with
  | step _ ih =>
    obtain ⟨hother⟩ := hother
    exact substitute_congr fun x hx => ih x hx (hother x hx)

theorem resolveWith_nothing (answer : Reference → Expression) (times : Nat) :
    resolveWith answer times nothing = nothing := by
  cases times <;> rfl

end Expression

namespace Definitions

open Expression

variable {definitions table : Definitions} {configs : List LoadedConfig}

theorem isReferenceName_of_tableOf
    (hconfigs : ∀ loaded ∈ configs, loaded.config.IsAccepted) :
    ∀ name ∈ (tableOf configs).map (·.1), Config.isReferenceName name = true := by
  intro name hname
  rw [← find?_isSome_iff, find?_tableOf, effective?, List.findSome?_isSome_iff] at hname
  obtain ⟨loaded, hloaded, hdefined⟩ := hname
  rw [LoadedConfig.definition?, Option.isSome_map, List.lookup_isSome_iff] at hdefined
  obtain ⟨entry, hentry, heq⟩ := hdefined
  rw [beq_iff_eq.mp heq]
  exact Config.isReferenceName_of_isAccepted (hconfigs loaded hloaded) entry hentry

/-! ## Chains of questions -/

/-- What is asked for is nothing, or the definition of a name. -/
theorem answer_cases (definitions : Definitions) (x : Reference) :
    definitions.answer x = nothing ∨
      ∃ d, x.path.isEmpty = true ∧ definitions.find? x.name = some d ∧
        definitions.answer x = d.expression := by
  by_cases hpath : x.path.isEmpty = true
  · cases hfind : definitions.find? x.name with
    | none => exact Or.inl (by simp [answer, hpath, hfind])
    | some d => exact Or.inr ⟨d, hpath, rfl, by simp [answer, hpath, hfind]⟩
  · exact Or.inl (by simp [answer, hpath])

/-- Resolving unfolds an expression that is asked for at the end of a chain of names, if it
may still go on as often as there are names that are not on the chain, and once more. -/
theorem unfolds_resolveWith
    (hnames : ∀ name ∈ definitions.map (·.1), Config.isReferenceName name = true)
    (hends : ∀ name, definitions.Ends name) {times : Nat} {chain : List String} {e : Expression}
    (hchain : chain.IsChain definitions.Refers)
    (hdefined : ∀ name ∈ chain, name ∈ definitions.map (·.1))
    (hnext : ∀ x ∈ e.references, x.path.isEmpty = true → x.isWeaker = false →
      (chain ++ [x.name]).IsChain definitions.Refers)
    (htimes : definitions.length < times + chain.length) :
    Unfolds definitions.answer e (resolveWith definitions.answer times e) := by
  induction times generalizing chain e with
  | zero =>
    have hnodup := nodup_of_isChain hchain fun name _ => not_transGen_of_acc (hends name)
    have hle := length_le_of_defined hnodup hdefined
    omega
  | succ times ih =>
    rw [resolveWith_succ]
    apply Unfolds.step
    intro x hx
    obtain hnothing | ⟨d, hpath, hd, hanswer⟩ := answer_cases definitions x
    · rw [hnothing, resolveWith_nothing]
      exact unfolds_nothing _
    · have hname : x.name ∈ definitions.map (·.1) :=
        find?_isSome_iff.mp (Option.isSome_iff_exists.mpr ⟨d, hd⟩)
      have hweaker : x.isWeaker = false := by
        have hreference := hnames x.name hname
        simp only [Config.isReferenceName, Bool.and_eq_true, bne_iff_ne] at hreference
        simp [Reference.isWeaker, hreference.2]
      rw [hanswer]
      refine @ih (chain ++ [x.name]) d.expression ?_ ?_ ?_ ?_
      · exact hnext x hx hpath hweaker
      · intro name hmem
        rcases List.mem_append.mp hmem with hmem | hmem
        · exact hdefined name hmem
        · rwa [List.mem_singleton.mp hmem]
      · intro y hy hempty hweak
        have hrefers : definitions.Refers x.name y.name := ⟨d, hd, y, hy, hempty, hweak, rfl⟩
        exact isChain_concat (hnext x hx hpath hweaker) List.getLast?_concat hrefers
      · rw [List.length_append, List.length_singleton]
        omega

/-- Resolving against the table of some configurations ends for every expression, and no
reference is left.  What it gives does not depend on its limit: it is told to go on as
often as it can take. -/
theorem resolve_unfolds (hconfigs : ∀ loaded ∈ configs, loaded.config.IsAccepted)
    (h : merge configs = .ok table) (e : Expression) :
    Unfolds table.answer e (table.resolve e) ∧ (table.resolve e).references = [] ∧
      ∀ times, table.length < times → resolveWith table.answer times e = table.resolve e := by
  obtain ⟨rfl, hends⟩ := eq_tableOf_of_merge hconfigs h
  have hunfolds : ∀ times, (tableOf configs).length < times →
      Unfolds (tableOf configs).answer e (resolveWith (tableOf configs).answer times e) := by
    intro times htimes
    exact unfolds_resolveWith (isReferenceName_of_tableOf hconfigs) hends List.isChain_nil
      nofun (fun x _ _ _ => List.isChain_singleton x.name) htimes
  have hresolve : Unfolds (tableOf configs).answer e ((tableOf configs).resolve e) :=
    hunfolds _ (Nat.lt_succ_self _)
  exact ⟨hresolve, hresolve.references, fun times htimes => (hunfolds times htimes).unique hresolve⟩

/-- Two files share the definition of `base`, in which `%_`, a reference with a path and
a name that is not defined count for nothing. -/
theorem resolve_unfolds_of_shared :
    let reference (name : String) := ofReference (.named name)
    let pattern (name : String) := ofPattern (.ofPath ⟨.absolute, [name], none⟩)
    let all := combine .juxtaposition (reference "base") (reference "base").complement
    let base := combine .union (combine .union (pattern "b") (ofReference .weaker))
      (combine .difference (ofReference ⟨.root, "base"⟩) (reference "x"))
    let near : LoadedConfig := ⟨"/w/p", { references := [("all", "%:base ~%:base")] }⟩
    let far : LoadedConfig := ⟨"/w", { references := [("base", "/b+%_+(%/:base-%:x)")] }⟩
    let table : Definitions := [("all", ⟨all, "/w/p"⟩), ("base", ⟨base, "/w"⟩)]
    let e := combine .intersection (reference "all") (reference "base")
    (near.config.IsAccepted ∧ far.config.IsAccepted) ∧
      merge [near, far] = .ok table ∧
      table.resolve e = combine .intersection
        (combine .juxtaposition (pattern "b") (pattern "b").complement) (pattern "b") ∧
      Unfolds table.answer e (table.resolve e) ∧ (table.resolve e).references = [] ∧
      ∀ times, table.length < times → resolveWith table.answer times e = table.resolve e := by
  intro reference pattern all base near far table e
  have hnear : Config.parse "/w/p" "references.all='%:base ~%:base'" = .ok near.config := by cbv
  have hfar : Config.parse "/w" "references.base='/b+%_+(%/:base-%:x)'" = .ok far.config := by cbv
  have hmerge : merge [near, far] = .ok table := by cbv
  have haccepted : near.config.IsAccepted ∧ far.config.IsAccepted :=
    ⟨Config.isAccepted_of_parse hnear, Config.isAccepted_of_parse hfar⟩
  have hconfigs : ∀ loaded ∈ [near, far], loaded.config.IsAccepted :=
    List.forall_mem_cons.mpr ⟨haccepted.1, List.forall_mem_singleton.mpr haccepted.2⟩
  exact ⟨haccepted, hmerge, by decide, resolve_unfolds hconfigs hmerge e⟩

end Definitions

end PathSets
