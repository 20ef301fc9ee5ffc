import Mathlib
import PathSets.Proofs.DefinitionTable

/-!
# The search for cycles

The names of a table are the points of a graph, in which a name leads to those that its
definition refers to (`Definitions.Refers`).  The search goes through it depth first.

* `Definitions.Ends`: no chain of references from a name goes on for ever.  Every name
  that the search is done with is one of these, because all names that it leads to were
  done before it (`answers_checkFrom`).
* `IsCycle`: a chain of references that comes back to its first name.  The search only
  fails with one of these.
* `length_le_of_isChain`: without repetitions no chain has more names than there are
  definitions, and one more.  This is why the search never comes to its limit.

`merge_decides` says what this means for the configurations that are merged.
-/

namespace PathSets

/-- A chain of steps that begins and ends with the name, and has at least one step. -/
structure IsCycle (Step : String → String → Prop) (name : String) (chain : List String) :
    Prop where
  steps : chain.IsChain Step
  first : chain.head? = some name
  last : chain.getLast? = some name
  proper : 2 ≤ chain.length

/-- Where names are defined by `define?`, the definition of `x` refers to `y`.  References
with a path and `%_` do not count. -/
def RefersBy (define? : String → Option Definition) (x y : String) : Prop :=
  ∃ d, define? x = some d ∧
    ∃ r ∈ d.expression.references, r.path.isEmpty = true ∧ r.isWeaker = false ∧ r.name = y

section Cycles

variable {Step : String → String → Prop} {name : String} {chain : List String}

/-- A chain that comes back leads from its first name to itself. -/
theorem IsCycle.transGen (h : IsCycle Step name chain) : Relation.TransGen Step name name := by
  obtain ⟨hsteps, hfirst, hlast, hproper⟩ := h
  match chain with
  | [] => exact absurd hproper (by simp)
  | [_] => exact absurd hproper (by simp)
  | first :: next :: rest =>
    obtain rfl : first = name := Option.some.inj hfirst
    rw [List.isChain_cons_cons] at hsteps
    have hend : (next :: rest).getLast (by simp) = first := by
      rw [List.getLast?_eq_getLast_of_ne_nil (by simp), List.getLast_cons (by simp)] at hlast
      exact Option.some.inj hlast
    exact .head' hsteps.1 (List.relationReflTransGen_of_exists_isChain_cons rest hsteps.2 hend)

/-- A name from which no chain goes on for ever does not lead back to itself. -/
theorem not_transGen_of_acc (h : Acc (Function.swap Step) name) :
    ¬ Relation.TransGen Step name name := by
  have hacc := h.transGen
  clear h
  rw [← Relation.transGen_swap]
  induction hacc with
  | intro x _ ih => exact fun hx => ih x hx hx

/-- A chain whose names do not lead back to themselves has no name twice. -/
theorem nodup_of_isChain (h : chain.IsChain Step)
    (hends : ∀ x ∈ chain, ¬ Relation.TransGen Step x x) : chain.Nodup := by
  have htrans : chain.IsChain (Relation.TransGen Step) := h.imp fun _ _ => .single
  refine htrans.pairwise.imp_of_mem ?_
  rintro x y hx - hxy rfl
  exact hends x hx hxy

/-- Every name of a chain but the last has a step to the next one. -/
theorem exists_step_of_isChain (h : (chain ++ [name]).IsChain Step) :
    ∀ x ∈ chain, ∃ y, Step x y := by
  intro x hx
  obtain ⟨front, back, rfl, -⟩ := List.eq_append_cons_of_mem hx
  obtain ⟨y, rest, hrest⟩ := List.exists_cons_of_ne_nil (show back ++ [name] ≠ [] by simp)
  rw [List.append_assoc, List.cons_append, hrest] at h
  exact ⟨y, (List.isChain_cons_cons.mp h.right_of_append).1⟩

theorem isChain_concat {next : String} (h : chain.IsChain Step)
    (hlast : chain.getLast? = some name) (hstep : Step name next) :
    (chain ++ [next]).IsChain Step := by
  rw [List.isChain_append]
  refine ⟨h, List.isChain_singleton next, ?_⟩
  intro x hx y hy
  obtain rfl : name = x := Option.some.inj (hlast.symm.trans hx)
  obtain rfl : next = y := Option.some.inj hy
  exact hstep

/-- A name that comes up again after the last of a chain closes a cycle. -/
theorem isCycle_of_mem {next : String} (h : chain.IsChain Step)
    (hlast : chain.getLast? = some name) (hstep : Step name next) (hnext : next ∈ chain) :
    IsCycle Step next (chain.dropWhile (· != next) ++ [next]) := by
  obtain ⟨front, back, rfl, hfront⟩ := List.eq_append_cons_of_mem hnext
  have hdrop : (front ++ next :: back).dropWhile (· != next) = next :: back := by
    rw [List.dropWhile_append_of_pos]
    · simp
    · intro x hx
      exact bne_iff_ne.mpr fun heq => hfront (heq ▸ hx)
  rw [List.getLast?_append_of_ne_nil front (by simp)] at hlast
  rw [hdrop]
  exact ⟨isChain_concat h.right_of_append hlast hstep, rfl, List.getLast?_concat, by simp⟩

end Cycles

namespace Definitions

open Expression (combine ofReference nothing)

variable {definitions : Definitions} {name next : String} {chain done : List String}

/-! ## The graph -/

/-- The definition of `x` refers to `y`. -/
abbrev Refers (definitions : Definitions) : String → String → Prop :=
  RefersBy definitions.find?

theorem mem_dependencies_iff {x y : String} :
    y ∈ definitions.dependencies x ↔ definitions.Refers x y := by
  unfold dependencies Refers RefersBy
  cases definitions.find? x with
  | none => simp
  | some d => simp [namesIn, and_assoc]

/-- No chain of references from the name goes on for ever. -/
def Ends (definitions : Definitions) (name : String) : Prop :=
  Acc (Function.swap definitions.Refers) name

theorem mem_names_of_refers {x y : String} (h : definitions.Refers x y) :
    x ∈ definitions.map (·.1) := by
  obtain ⟨d, hd, -⟩ := h
  exact find?_isSome_iff.mp (Option.isSome_iff_exists.mpr ⟨d, hd⟩)

/-- Names that are all defined and do not repeat are no more than the definitions. -/
theorem length_le_of_defined (hnodup : chain.Nodup)
    (h : ∀ x ∈ chain, x ∈ definitions.map (·.1)) : chain.length ≤ definitions.length := by
  have hle := hnodup.length_le_of_subset h
  rwa [List.length_map] at hle

/-- Every name of a chain but the last refers to another one and so is defined. -/
theorem length_le_of_isChain (h : (chain ++ [name]).IsChain definitions.Refers)
    (hnodup : (chain ++ [name]).Nodup) : chain.length ≤ definitions.length := by
  apply length_le_of_defined (hnodup.sublist (List.sublist_append_left chain [name]))
  intro x hx
  obtain ⟨y, hy⟩ := exists_step_of_isChain h x hx
  exact mem_names_of_refers hy

/-! ## The search -/

/-- What a search through some names may answer: that it is done with them and with what
was done before, none of which leads on for ever, or a cycle. -/
def Answers (definitions : Definitions) (done names : List String) :
    Except (List String) (List String) → Prop
  | .ok done' => done ⊆ done' ∧ names ⊆ done' ∧ ∀ x ∈ done', definitions.Ends x
  | .error cycle => ∃ name, IsCycle definitions.Refers name cycle

/-- Searching through names one by one, if each search answers. -/
theorem answers_foldlM {step : List String → String → Except (List String) (List String)}
    {names : List String} (hdone : ∀ x ∈ done, definitions.Ends x)
    (hstep : ∀ done, (∀ x ∈ done, definitions.Ends x) → ∀ next ∈ names,
      definitions.Answers done [next] (step done next)) :
    definitions.Answers done names (names.foldlM step done) := by
  induction names generalizing done with
  | nil => exact ⟨List.Subset.refl done, List.nil_subset done, hdone⟩
  | cons next names ih =>
    have hfirst := hstep done hdone next (by simp)
    rw [List.foldlM_cons]
    cases hresult : step done next with
    | error cycle =>
      rw [hresult] at hfirst
      exact hfirst
    | ok done₁ =>
      rw [hresult] at hfirst
      obtain ⟨hkeeps, hnext, hends⟩ := hfirst
      have hrest := ih hends fun done hdone x hx => hstep done hdone x (List.mem_cons_of_mem _ hx)
      show definitions.Answers done (next :: names) (names.foldlM step done₁)
      cases hresult' : names.foldlM step done₁ with
      | error cycle =>
        rw [hresult'] at hrest
        exact hrest
      | ok done₂ =>
        rw [hresult'] at hrest
        obtain ⟨hkeeps', hnames, hends'⟩ := hrest
        refine ⟨List.Subset.trans hkeeps hkeeps', ?_, hends'⟩
        exact List.cons_subset.mpr ⟨hkeeps' (hnext (by simp)), hnames⟩

theorem answers_of_mem (hdone : ∀ x ∈ done, definitions.Ends x) (h : name ∈ done) :
    definitions.Answers done [name] (.ok done) :=
  ⟨List.Subset.refl done, List.cons_subset.mpr ⟨h, List.nil_subset done⟩, hdone⟩

/-- The search is done with a name when it is done with those that it refers to. -/
theorem Answers.concluded {result : Except (List String) (List String)}
    (h : definitions.Answers done (definitions.dependencies name).reverse result) :
    definitions.Answers done [name] (do return name :: (← result)) := by
  cases result with
  | error cycle => exact h
  | ok done' =>
    obtain ⟨hkeeps, hnames, hends⟩ := h
    have hname : definitions.Ends name := by
      constructor
      intro y hy
      exact hends y (hnames (List.mem_reverse.mpr (mem_dependencies_iff.mpr hy)))
    refine ⟨List.subset_cons_of_subset name hkeeps, by simp, ?_⟩
    intro x hx
    rcases List.mem_cons.mp hx with rfl | hx
    · exact hname
    · exact hends x hx

/-- The search from the last name of a chain answers.  The induction is on the limit,
which a chain without repetitions does not come to. -/
theorem answers_checkFrom {limit : Nat} (hdone : ∀ x ∈ done, definitions.Ends x)
    (hchain : (chain ++ [name]).IsChain definitions.Refers) (hnodup : (chain ++ [name]).Nodup)
    (hlimit : definitions.length < limit + chain.length) :
    definitions.Answers done [name] (checkFrom definitions limit (chain ++ [name]) name done) := by
  induction limit generalizing chain name done with
  | zero =>
    have hle := length_le_of_isChain hchain hnodup
    omega
  | succ limit ih =>
    rw [checkFrom]
    apply Answers.concluded
    apply answers_foldlM hdone
    intro done hdone next hnext
    have hrefers : definitions.Refers name next :=
      mem_dependencies_iff.mp (List.mem_reverse.mp hnext)
    by_cases hmem : next ∈ done
    · rw [if_pos hmem]
      exact answers_of_mem hdone hmem
    rw [if_neg hmem]
    by_cases hon : next ∈ chain ++ [name]
    · rw [if_pos hon]
      exact ⟨next, isCycle_of_mem hchain List.getLast?_concat hrefers hon⟩
    rw [if_neg hon]
    apply ih hdone
    · exact isChain_concat hchain List.getLast?_concat hrefers
    · rw [List.nodup_append]
      refine ⟨hnodup, List.nodup_singleton next, ?_⟩
      rintro a ha b hb rfl
      exact hon (List.mem_singleton.mp hb ▸ ha)
    · rw [List.length_append, List.length_singleton]
      omega

theorem answers_findCycle (definitions : Definitions) :
    definitions.Answers [] (definitions.map (·.1)) definitions.findCycle := by
  rw [findCycle]
  apply answers_foldlM
  · simp
  · intro done hdone next _
    by_cases hmem : next ∈ done
    · rw [if_pos hmem]
      exact answers_of_mem hdone hmem
    · rw [if_neg hmem]
      have hlimit : definitions.length < definitions.length + 1 + ([] : List String).length := by
        simp
      exact answers_checkFrom hdone (List.isChain_singleton next) (List.nodup_singleton next) hlimit

/-! ## Merging -/

/-- The search ends without an error and no chain goes on for ever, or it ends with a
cycle. -/
theorem findCycle_cases (definitions : Definitions) :
    ((∃ done, definitions.findCycle = .ok done) ∧ ∀ name, definitions.Ends name) ∨
      ∃ name chain, definitions.findCycle = .error chain ∧
        IsCycle definitions.Refers name chain := by
  have h := answers_findCycle definitions
  cases hresult : definitions.findCycle with
  | error chain =>
    rw [hresult] at h
    obtain ⟨name, hcycle⟩ := h
    exact Or.inr ⟨name, chain, rfl, hcycle⟩
  | ok done =>
    rw [hresult] at h
    obtain ⟨-, hnames, hends⟩ := h
    refine Or.inl ⟨⟨done, rfl⟩, ?_⟩
    intro name
    by_cases hname : name ∈ definitions.map (·.1)
    · exact hends name (hnames hname)
    · constructor
      intro y hy
      exact absurd (mem_names_of_refers hy) hname

variable {configs : List LoadedConfig} {table : Definitions}

theorem refersBy_effective (configs : List LoadedConfig) :
    RefersBy (effective? configs) = (tableOf configs).Refers := by
  have hfind : (tableOf configs).find? = effective? configs := funext (find?_tableOf configs)
  rw [Refers, hfind]

/-- Merging accepted configurations makes their table and looks for a cycle in it. -/
theorem merge_eq (hconfigs : ∀ loaded ∈ configs, loaded.config.IsAccepted) :
    merge configs =
      match (tableOf configs).findCycle with
      | .ok _ => .ok (tableOf configs)
      | .error chain => .error (.reference (chain.getLastD "")
          ((tableOf configs).sourceOf (chain.getLastD "")) (.cycle chain)) := by
  rw [merge, ofConfigs_eq_ok hconfigs, ok_bind]
  rfl

/-- What merging gives, if no chain of references goes on for ever. -/
theorem eq_tableOf_of_merge (hconfigs : ∀ loaded ∈ configs, loaded.config.IsAccepted)
    (h : merge configs = .ok table) :
    table = tableOf configs ∧ ∀ name, table.Ends name := by
  rw [merge_eq hconfigs] at h
  obtain ⟨⟨done, hdone⟩, hends⟩ | ⟨name, chain, hchain, -⟩ := findCycle_cases (tableOf configs)
  · simp only [hdone] at h
    obtain rfl := Except.ok.inj h
    exact ⟨rfl, hends⟩
  · simp only [hchain] at h
    exact absurd h (by simp)

/-- Which error merging gives. -/
theorem cycle_of_merge (hconfigs : ∀ loaded ∈ configs, loaded.config.IsAccepted)
    {error : ConfigError} (h : merge configs = .error error) :
    ∃ name d chain, error = .reference name d.source (.cycle chain) ∧
      effective? configs name = some d ∧ IsCycle (RefersBy (effective? configs)) name chain := by
  rw [merge_eq hconfigs] at h
  obtain ⟨⟨done, hdone⟩, -⟩ | ⟨name, chain, hchain, hcycle⟩ := findCycle_cases (tableOf configs)
  · simp only [hdone] at h
    exact absurd h (by simp)
  · simp only [hchain] at h
    have hname : chain.getLastD "" = name := by
      rw [List.getLastD_eq_getLast?, hcycle.last, Option.getD_some]
    rw [← refersBy_effective] at hcycle
    obtain ⟨next, ⟨d, hd, -⟩, -⟩ := Relation.TransGen.head'_iff.mp hcycle.transGen
    have hsource : (tableOf configs).sourceOf name = d.source := by
      rw [sourceOf, find?_tableOf, hd]
      rfl
    rw [hname, hsource] at h
    exact ⟨name, d, chain, (Except.error.inj h).symm, hd, hcycle⟩

/-- Merging accepted configurations succeeds exactly if no name leads back to itself through
the definitions that count.  The table then holds these definitions and nothing else, in
ascending order.  Otherwise the error is a cycle among them: a chain of references from
the name that is reported back to it, with the file that defines the name. -/
theorem merge_decides (hconfigs : ∀ loaded ∈ configs, loaded.config.IsAccepted) :
    ((∃ table, merge configs = .ok table) ↔
        ∀ name, ¬ Relation.TransGen (RefersBy (effective? configs)) name name) ∧
      (∀ table, merge configs = .ok table →
        table.StrictlyAscending ∧ ∀ name, table.find? name = effective? configs name) ∧
      ∀ error, merge configs = .error error →
        ∃ name d chain, error = .reference name d.source (.cycle chain) ∧
          effective? configs name = some d ∧
          IsCycle (RefersBy (effective? configs)) name chain := by
  refine ⟨⟨?_, ?_⟩, ?_, fun error => cycle_of_merge hconfigs⟩
  · rintro ⟨table, h⟩ name
    obtain ⟨rfl, hends⟩ := eq_tableOf_of_merge hconfigs h
    rw [refersBy_effective]
    exact not_transGen_of_acc (hends name)
  · intro hacyclic
    cases h : merge configs with
    | ok table => exact ⟨table, rfl⟩
    | error error =>
      obtain ⟨name, d, chain, -, -, hcycle⟩ := cycle_of_merge hconfigs h
      exact absurd hcycle.transGen (hacyclic name)
  · intro table h
    obtain ⟨rfl, -⟩ := eq_tableOf_of_merge hconfigs h
    exact ⟨strictlyAscending_tableOf configs, find?_tableOf configs⟩

set_option maxRecDepth 2000 in
/-- The near file hides the definition of `a` that would close a loop in the far one, and
`b` and `c` share `a`.  Without the near file, `a` and `b` lead to each other. -/
theorem merge_decides_of_hidden_loop :
    let refersTo (names : List String) :=
      names.foldr (fun name e => combine .juxtaposition (ofReference (.named name)) e) nothing
    let near : LoadedConfig := ⟨"/w/p", { references := [("a", "%:x")] }⟩
    let far : LoadedConfig :=
      ⟨"/w", { references := [("a", "%:b"), ("b", "%:a"), ("c", "%:b %:a")] }⟩
    let table : Definitions := [("a", ⟨refersTo ["x"], "/w/p"⟩), ("b", ⟨refersTo ["a"], "/w"⟩),
      ("c", ⟨refersTo ["b", "a"], "/w"⟩)]
    let error : ConfigError := .reference "a" "/w" (.cycle ["a", "b", "a"])
    (near.config.IsAccepted ∧ far.config.IsAccepted) ∧
      (merge [near, far] = .ok table ∧ table.StrictlyAscending ∧
        ∀ name, table.find? name = effective? [near, far] name) ∧
      merge [far] = .error error ∧
        ∃ name d chain, error = .reference name d.source (.cycle chain) ∧
          effective? [far] name = some d ∧ IsCycle (RefersBy (effective? [far])) name chain := by
  intro refersTo near far table error
  have hnear : Config.parse "/w/p" "references.a='%:x'" = .ok near.config := by cbv
  have hfar : Config.parse "/w" "references=\x7ba='%:b',b='%:a',c='%:b %:a'\x7d" =
      .ok far.config := by cbv
  have hmerge : merge [near, far] = .ok table := by cbv
  have herror : merge [far] = .error error := by cbv
  have haccepted : near.config.IsAccepted ∧ far.config.IsAccepted :=
    ⟨Config.isAccepted_of_parse hnear, Config.isAccepted_of_parse hfar⟩
  have hfars : ∀ loaded ∈ [far], loaded.config.IsAccepted :=
    List.forall_mem_singleton.mpr haccepted.2
  have hboth : ∀ loaded ∈ [near, far], loaded.config.IsAccepted :=
    List.forall_mem_cons.mpr ⟨haccepted.1, hfars⟩
  exact ⟨haccepted, ⟨hmerge, (merge_decides hboth).2.1 table hmerge⟩, herror,
    (merge_decides hfars).2.2 error herror⟩

end Definitions

end PathSets
