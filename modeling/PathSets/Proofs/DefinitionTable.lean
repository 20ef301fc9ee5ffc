import Mathlib.Data.List.Forall2
import Mathlib.Data.List.Nodup
import Mathlib.Tactic.Common
import PathSets.Config.Merge
import PathSets.Proofs.Outcome

/-!
# What a table of definitions holds

The texts of a configuration are read when it is accepted and again when it is merged.
Nothing can go wrong the second time (`expressions_of_isAccepted`), so merging is a matter
of the expressions alone.

`Definitions.effective?` says which definition of a name counts, without a table: the one
in the first configuration that has one.  `Definitions.tableOf` is the table of them.

* `ofConfigs_eq_ok`: merging accepted configurations makes this table.
* `find?_tableOf`: looking a name up in the table gives its effective definition.
* `strictlyAscending_tableOf`: the table has each name once, in ascending order.
-/

namespace PathSets

/-! ## Reading the texts again -/

namespace Config

variable {config : Config} {path : String} {references : List (String × String)}
  {entries : List (String × Expression)}

/-- Whether an entry is what a name and a text define. -/
def Defines (reference : String × String) (entry : String × Expression) : Prop :=
  readDefinition reference.1 reference.2 = .ok entry.2 ∧ entry.1 = reference.1

/-- Definitions are read one by one, and wherever they are written. -/
theorem readDefinitions_eq_ok_iff :
    readDefinitions path references = .ok entries ↔ List.Forall₂ Defines references entries := by
  induction references generalizing entries with
  | nil =>
    rw [readDefinitions, List.mapM_nil, List.forall₂_nil_left_iff]
    exact ⟨fun h => (Except.ok.inj h).symm, fun h => h ▸ rfl⟩
  | cons reference references ih =>
    rw [readDefinitions, List.mapM_cons, List.forall₂_cons_left_iff, bind_eq_ok]
    constructor
    · rintro ⟨entry, hentry, h⟩
      obtain ⟨others, hothers, h⟩ := bind_eq_ok.mp h
      obtain rfl := Except.ok.inj h
      refine ⟨entry, others, ?_, ih.mp hothers, rfl⟩
      dsimp only at hentry
      split at hentry
      · next e he =>
        obtain rfl := Except.ok.inj hentry
        exact ⟨he, rfl⟩
      · exact absurd hentry (by simp)
    · rintro ⟨⟨name, e⟩, others, ⟨hread, rfl⟩, hothers, rfl⟩
      refine ⟨(reference.1, e), ?_, bind_eq_ok.mpr ⟨others, ih.mpr hothers, rfl⟩⟩
      dsimp only at hread ⊢
      rw [hread]

/-- A configuration is accepted where some text is decoded as it and its expressions can be
read. -/
def IsAccepted (config : Config) : Prop :=
  ∃ decode path text, parseWith decode path text = .ok config

theorem isAccepted_of_parse {text : String} (h : parse path text = .ok config) :
    config.IsAccepted :=
  ⟨decode?, path, text, h⟩

/-- The expressions of an accepted configuration can be read again, and are the same. -/
theorem expressions_of_isAccepted (h : config.IsAccepted) (path : String) :
    config.expressions path = .ok config.definitions := by
  obtain ⟨decode, first, text, h⟩ := h
  rw [parseWith] at h
  split at h
  · exact absurd h (by simp)
  · obtain ⟨entries, hentries, h⟩ := bind_eq_ok.mp h
    obtain rfl := Except.ok.inj h
    have hread (path : String) : Config.expressions _ path = .ok entries :=
      readDefinitions_eq_ok_iff.mpr (readDefinitions_eq_ok_iff.mp hentries)
    rw [definitions, hread path, hread ""]
    rfl

/-- The names in an accepted configuration are identifiers other than `_`. -/
theorem isReferenceName_of_isAccepted (h : config.IsAccepted) :
    ∀ entry ∈ config.definitions, isReferenceName entry.1 = true := by
  have hdefines := readDefinitions_eq_ok_iff.mp (expressions_of_isAccepted h "")
  generalize config.references = references, config.definitions = entries at hdefines ⊢
  induction hdefines with
  | nil => exact nofun
  | cons hentry _ ih =>
    obtain ⟨hread, hname⟩ := hentry
    refine List.forall_mem_cons.mpr ⟨?_, ih⟩
    rw [readDefinition] at hread
    split at hread
    · next hreference => rwa [hname]
    · exact absurd hread (by simp)

end Config

/-- What a configuration says about a name, with the path of its file. -/
def LoadedConfig.definition? (loaded : LoadedConfig) (name : String) : Option Definition :=
  (loaded.config.definitions.lookup name).map fun e => ⟨e, loaded.path⟩

namespace Definitions

/-- The definition of a name that counts: the one in the first configuration that has
one. -/
def effective? (configs : List LoadedConfig) (name : String) : Option Definition :=
  configs.findSome? (·.definition? name)

/-- Adds the definitions of an accepted configuration for names that have none yet. -/
def addAccepted (definitions : Definitions) (loaded : LoadedConfig) : Definitions :=
  definitions.addAll loaded.path loaded.config.definitions

/-- The table of the definitions that count in accepted configurations. -/
def tableOf (configs : List LoadedConfig) : Definitions :=
  (configs.foldl addAccepted []).mergeSort fun a b => a.1 ≤ b.1

/-- Every name is defined once. -/
def NodupNames (definitions : Definitions) : Prop :=
  (definitions.map (·.1)).Nodup

/-- The table has each name once, in ascending order. -/
def StrictlyAscending (definitions : Definitions) : Prop :=
  definitions.Pairwise fun a b => a.1 < b.1

variable {definitions : Definitions} {name : String}

/-! ## Making the table -/

theorem foldlM_addConfig {configs : List LoadedConfig}
    (h : ∀ loaded ∈ configs, loaded.config.IsAccepted) (definitions : Definitions) :
    configs.foldlM addConfig definitions = .ok (configs.foldl addAccepted definitions) := by
  induction configs generalizing definitions with
  | nil => rfl
  | cons loaded configs ih =>
    obtain ⟨hloaded, hconfigs⟩ := List.forall_mem_cons.mp h
    rw [List.foldlM_cons, List.foldl_cons, addConfig, Config.expressions_of_isAccepted hloaded]
    exact ih hconfigs _

/-- Where configurations are accepted, reading their expressions again does not fail. -/
theorem ofConfigs_eq_ok {configs : List LoadedConfig}
    (h : ∀ loaded ∈ configs, loaded.config.IsAccepted) :
    ofConfigs configs = .ok (tableOf configs) := by
  rw [ofConfigs, foldlM_addConfig h, ok_bind]
  rfl

/-! ## Looking up -/

theorem find?_append (front back : Definitions) (name : String) :
    find? (front ++ back) name = (front.find? name).or (back.find? name) :=
  List.lookup_append

theorem find?_nil (name : String) : find? [] name = none := rfl

theorem find?_cons (entry : String × Definition) (name : String) :
    find? (entry :: definitions) name =
      if name = entry.1 then some entry.2 else definitions.find? name := by
  rw [find?, List.lookup_cons]
  by_cases h : name = entry.1
  · rw [if_pos h, beq_iff_eq.mpr h]
  · rw [if_neg h, beq_eq_false_iff_ne.mpr h]
    rfl

theorem find?_add (definitions : Definitions) (added : String) (d : Definition) (name : String) :
    (definitions.add added d).find? name =
      (definitions.find? name).or (find? [(added, d)] name) := by
  rw [add]
  split
  · next hsome =>
    -- The name that is not added again is found already.
    by_cases h : name = added
    · subst h
      obtain ⟨found, hfound⟩ := Option.isSome_iff_exists.mp hsome
      rw [hfound, Option.some_or]
    · rw [find?_cons, if_neg h, find?_nil, Option.or_none]
  · exact find?_append definitions _ name

/-- Adding the definitions of a configuration leaves those that are there. -/
theorem find?_addAccepted (definitions : Definitions) (loaded : LoadedConfig) (name : String) :
    (definitions.addAccepted loaded).find? name =
      (definitions.find? name).or (loaded.definition? name) := by
  rw [addAccepted, addAll, LoadedConfig.definition?]
  induction loaded.config.definitions generalizing definitions with
  | nil => simp
  | cons entry entries ih =>
    obtain ⟨added, e⟩ := entry
    rw [List.foldl_cons, ih, find?_add, find?_cons, Option.or_assoc, List.lookup_cons]
    by_cases h : name = added
    · rw [if_pos h, beq_iff_eq.mpr h]
      rfl
    · rw [if_neg h, beq_eq_false_iff_ne.mpr h]
      rfl

theorem find?_foldl (configs : List LoadedConfig) (definitions : Definitions) (name : String) :
    find? (configs.foldl addAccepted definitions) name =
      (definitions.find? name).or (effective? configs name) := by
  induction configs generalizing definitions with
  | nil => simp [effective?]
  | cons loaded configs ih =>
    rw [List.foldl_cons, ih, find?_addAccepted, Option.or_assoc, effective?, effective?,
      List.findSome?_cons]
    cases loaded.definition? name <;> rfl

/-! ## Names -/

theorem find?_isSome_iff :
    (definitions.find? name).isSome = true ↔ name ∈ definitions.map (·.1) := by
  rw [find?, List.lookup_isSome_iff, List.mem_map]
  constructor
  · rintro ⟨entry, hentry, hname⟩
    exact ⟨entry, hentry, (beq_iff_eq.mp hname).symm⟩
  · rintro ⟨entry, hentry, hname⟩
    exact ⟨entry, hentry, beq_iff_eq.mpr hname.symm⟩

theorem nodupNames_nil : NodupNames [] := List.nodup_nil

theorem NodupNames.perm {other : Definitions} (h : definitions.NodupNames)
    (hperm : definitions.Perm other) : other.NodupNames := by
  unfold NodupNames at *
  exact (hperm.map (·.1)).nodup_iff.mp h

theorem nodupNames_add (h : definitions.NodupNames) (added : String) (d : Definition) :
    (definitions.add added d).NodupNames := by
  rw [add]
  split
  · exact h
  · next hnone =>
    rw [find?_isSome_iff] at hnone
    rw [NodupNames, List.map_append, List.nodup_append]
    refine ⟨h, List.nodup_singleton added, ?_⟩
    intro a ha b hb
    obtain rfl := List.mem_singleton.mp hb
    exact fun heq => hnone (heq ▸ ha)

theorem nodupNames_addAccepted (h : definitions.NodupNames) (loaded : LoadedConfig) :
    (definitions.addAccepted loaded).NodupNames := by
  rw [addAccepted, addAll]
  induction loaded.config.definitions generalizing definitions with
  | nil => exact h
  | cons entry entries ih => exact ih (nodupNames_add h entry.1 _)

theorem nodupNames_foldl (h : definitions.NodupNames) (configs : List LoadedConfig) :
    NodupNames (configs.foldl addAccepted definitions) := by
  induction configs generalizing definitions with
  | nil => exact h
  | cons loaded configs ih => exact ih (nodupNames_addAccepted h loaded)

theorem nodupNames_tableOf (configs : List LoadedConfig) :
    (tableOf configs).NodupNames := by
  have hnodup : NodupNames (configs.foldl addAccepted []) :=
    nodupNames_foldl nodupNames_nil configs
  exact hnodup.perm (List.mergeSort_perm _ _).symm

/-! ## Order -/

/-- Where each name stands once, it is found by its entry. -/
theorem find?_eq_some_iff (h : definitions.NodupNames) {d : Definition} :
    definitions.find? name = some d ↔ (name, d) ∈ definitions := by
  induction definitions with
  | nil => simp [find?]
  | cons entry entries ih =>
    obtain ⟨first, e⟩ := entry
    rw [NodupNames, List.map_cons, List.nodup_cons] at h
    rw [find?_cons, List.mem_cons, Prod.mk.injEq]
    by_cases hname : name = first
    · subst hname
      have hnot : (name, d) ∉ entries := fun hmem => h.1 (List.mem_map.mpr ⟨_, hmem, rfl⟩)
      simp [hnot, eq_comm]
    · simp only [hname, if_false, false_and, false_or]
      exact ih h.2

theorem find?_perm {other : Definitions} (hperm : definitions.Perm other)
    (h : definitions.NodupNames) (name : String) :
    definitions.find? name = other.find? name := by
  refine Option.ext fun d => ?_
  rw [find?_eq_some_iff h, find?_eq_some_iff (h.perm hperm), hperm.mem_iff]

/-- Looking a name up in the table gives the definition that counts. -/
theorem find?_tableOf (configs : List LoadedConfig) (name : String) :
    (tableOf configs).find? name = effective? configs name := by
  have hperm : (tableOf configs).Perm (configs.foldl addAccepted []) := List.mergeSort_perm _ _
  rw [find?_perm hperm (nodupNames_tableOf configs), find?_foldl]
  rfl

theorem strictlyAscending_tableOf (configs : List LoadedConfig) :
    (tableOf configs).StrictlyAscending := by
  have hnodup := nodupNames_tableOf configs
  have hascending : (tableOf configs).Pairwise fun a b => decide (a.1 ≤ b.1) = true := by
    apply List.pairwise_mergeSort
    · intro a b c hab hbc
      rw [decide_eq_true_eq] at *
      exact String.le_trans hab hbc
    · intro a b
      rw [Bool.or_eq_true, decide_eq_true_eq, decide_eq_true_eq]
      exact String.le_total a.1 b.1
  rw [NodupNames, List.Nodup, List.pairwise_map] at hnodup
  refine (hascending.and hnodup).imp ?_
  rintro a b ⟨hle, hne⟩
  rw [decide_eq_true_eq] at hle
  exact Decidable.byContradiction fun hlt => hne (String.le_antisymm hle hlt)

end Definitions

end PathSets
