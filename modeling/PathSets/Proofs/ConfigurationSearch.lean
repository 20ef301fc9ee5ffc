import Mathlib.Data.List.Nodup
import Mathlib.Tactic.Common
import PathSets.Config.Cascade
import PathSets.Proofs.Outcome

/-!
# The search for configurations

Which files the search asks for is said here without the search.  It asks for the ones in a
directory and above it up to the first that ends the search (`Host.stretch`), and then for
the user's own if nothing found so far is against it (`Host.asked`).

The way up is a matter of the path of the directory (`Directory.upwards_eq`).

`search_eq_gather` says that the search is no more than that: it loads these files one
after the other, and what is not accepted ends it.  Everything else follows.

* `search_decides`: what is found, which error it is if a file is not accepted or the user
  has no home directory, and that no file counts but those that are read.
* `nodup_paths_iff`: the user's own configuration is found twice if the search has come by
  it on its way up and asks for it again.  Nothing else is found twice.

Nothing is assumed of how the text of a file is decoded.
-/

namespace PathSets

/-! ## Lists up to some element -/

section UpTo

variable {α : Type} {stop other : α → Bool} {xs : List α} {x : α}

/-- The elements up to the first at which `stop` holds, with that one. -/
def upTo (stop : α → Bool) : List α → List α
  | [] => []
  | x :: xs => x :: if stop x then [] else upTo stop xs

theorem upTo_sublist (stop : α → Bool) (xs : List α) : (upTo stop xs).Sublist xs := by
  induction xs with
  | nil => exact List.Sublist.slnil
  | cons x xs ih =>
    rw [upTo, List.cons_sublist_cons]
    split
    · exact List.nil_sublist xs
    · exact ih

theorem upTo_or (stop other : α → Bool) (xs : List α) :
    upTo (fun x => stop x || other x) xs = upTo other (upTo stop xs) := by
  induction xs with
  | nil => rfl
  | cons x xs ih =>
    cases hstop : stop x with
    | true => simp [upTo, hstop]
    | false => cases hother : other x <;> simp [upTo, hstop, hother, ih]

theorem upTo_append_of_forall (h : ∀ x ∈ xs, stop x = false) (ys : List α) :
    upTo stop (xs ++ ys) = xs ++ upTo stop ys := by
  induction xs with
  | nil => rfl
  | cons x xs ih =>
    obtain ⟨hx, hxs⟩ := List.forall_mem_cons.mp h
    simp [upTo, hx, ih hxs]

theorem mem_upTo_append (h : x ∈ upTo stop xs) (ys : List α) : x ∈ upTo stop (xs ++ ys) := by
  induction xs with
  | nil => exact absurd h List.not_mem_nil
  | cons y xs ih =>
    rw [List.cons_append, upTo]
    rw [upTo] at h
    cases hstop : stop y with
    | true => simpa [hstop] using h
    | false =>
      simp only [hstop, Bool.false_eq_true, if_false, List.mem_cons] at h ⊢
      exact h.imp_right ih

end UpTo

/-! ## Directories -/

namespace Directory

theorem configPath_cons (name : String) (directory : Directory) :
    configPath (name :: directory) = name ++ "/" ++ configPath directory := by
  obtain ⟨next, more, hmore⟩ := List.exists_cons_of_ne_nil
    (List.append_ne_nil_of_right_ne_nil directory (List.cons_ne_nil configFileName []))
  rw [configPath, configPath, List.cons_append, hmore, String.intercalate_cons_cons]

theorem length_configPath_cons (name : String) (directory : Directory) :
    (configPath (name :: directory)).length = name.length + 1 + (configPath directory).length := by
  rw [configPath_cons, String.length_append, String.length_append]
  rfl

theorem length_configPath_nil_le (directory : Directory) :
    (configPath []).length ≤ (configPath directory).length := by
  induction directory with
  | nil => exact Nat.le_refl _
  | cons name directory ih =>
    rw [length_configPath_cons]
    omega

/-- The file is found further down by a longer path. -/
theorem length_configPath_lt_append (directory : Directory) {more : List String}
    (hne : more ≠ []) :
    (configPath directory).length < (configPath (directory ++ more)).length := by
  induction directory with
  | nil =>
    obtain ⟨name, names, rfl⟩ := List.exists_cons_of_ne_nil hne
    have hle := length_configPath_nil_le names
    rw [List.nil_append, length_configPath_cons]
    omega
  | cons name directory ih =>
    rw [List.cons_append, length_configPath_cons, length_configPath_cons]
    omega

theorem length_configPath_lt_of_parent? {directory parent : Directory}
    (h : directory.parent? = some parent) :
    (configPath parent).length < (configPath directory).length := by
  rw [parent?] at h
  split at h
  · exact absurd h (by simp)
  · next hproper =>
    have hne : directory ≠ [] := fun heq => hproper (Or.inl heq)
    have hlt := length_configPath_lt_append directory.dropLast
      (List.cons_ne_nil (directory.getLast hne) [])
    rwa [List.dropLast_concat_getLast hne, Option.some.inj h] at hlt

theorem length_lt_of_parent? {directory parent : Directory}
    (h : directory.parent? = some parent) : parent.length < directory.length := by
  rw [parent?] at h
  split at h
  · exact absurd h (by simp)
  · next hproper =>
    have hpos : 0 < directory.length := List.length_pos_iff.mpr fun heq => hproper (Or.inl heq)
    rw [← Option.some.inj h, List.length_dropLast]
    omega

/-- Going up further than to the last directory makes no difference. -/
theorem upwardsWithin_of_length_le {directory : Directory} {limit other : Nat}
    (hlimit : directory.length ≤ limit) (hother : directory.length ≤ other) :
    directory.upwardsWithin limit = directory.upwardsWithin other := by
  induction limit generalizing directory other with
  | zero =>
    obtain rfl := List.length_eq_zero_iff.mp (Nat.le_zero.mp hlimit)
    cases other <;> rfl
  | succ limit ih =>
    cases other with
    | zero =>
      obtain rfl := List.length_eq_zero_iff.mp (Nat.le_zero.mp hother)
      rfl
    | succ other =>
      rw [upwardsWithin, upwardsWithin]
      cases hparent : directory.parent? with
      | none => rfl
      | some parent =>
        have hlt := length_lt_of_parent? hparent
        exact congrArg (directory :: ·) (ih (by omega) (by omega))

/-- The way up leads from each directory to the one that it is in, and ends where there is
none. -/
theorem upwards_eq (directory : Directory) :
    directory.upwards = directory :: (directory.parent?.map upwards).getD [] := by
  cases hparent : directory.parent? with
  | none => cases hlength : directory.length <;> simp [upwards, upwardsWithin, hlength, hparent]
  | some parent =>
    have hlt := length_lt_of_parent? hparent
    obtain ⟨limit, hlimit⟩ : ∃ limit, directory.length = limit + 1 :=
      Nat.exists_eq_add_one_of_ne_zero (by omega)
    rw [upwards, hlimit, upwardsWithin, hparent]
    exact congrArg (directory :: ·) (upwardsWithin_of_length_le (by omega) (Nat.le_refl _))

theorem length_configPath_le_of_mem {directory above : Directory} {limit : Nat}
    (h : above ∈ directory.upwardsWithin limit) :
    (configPath above).length ≤ (configPath directory).length := by
  induction limit generalizing directory with
  | zero =>
    rw [upwardsWithin, List.mem_singleton] at h
    exact Nat.le_of_eq (congrArg (·.configPath.length) h)
  | succ limit ih =>
    rw [upwardsWithin] at h
    rcases List.mem_cons.mp h with rfl | h
    · exact Nat.le_refl _
    · split at h
      · exact absurd h List.not_mem_nil
      · next parent hparent =>
        exact Nat.le_of_lt (Nat.lt_of_le_of_lt (ih h) (length_configPath_lt_of_parent? hparent))

theorem nodup_configPaths_upwardsWithin (limit : Nat) (directory : Directory) :
    ((directory.upwardsWithin limit).map (·.configPath)).Nodup := by
  induction limit generalizing directory with
  | zero => exact List.nodup_singleton _
  | succ limit ih =>
    rw [upwardsWithin, List.map_cons, List.nodup_cons]
    split
    · exact ⟨List.not_mem_nil, List.nodup_nil⟩
    · next parent hparent =>
      refine ⟨fun hmem => ?_, ih parent⟩
      obtain ⟨above, habove, heq⟩ := List.mem_map.mp hmem
      have hle := length_configPath_le_of_mem habove
      have hlt := length_configPath_lt_of_parent? hparent
      rw [heq] at hle
      omega

/-- On the way up no file comes twice. -/
theorem nodup_configPaths (start : Directory) : (start.upwards.map (·.configPath)).Nodup :=
  nodup_configPaths_upwardsWithin start.length start

end Directory

namespace Host

variable {host other : Host} {home : Option Directory} {start : Directory} {path : String}
  {paths : List String} {loaded : LoadedConfig} {configs : List LoadedConfig}
  {error : ConfigError}

/-! ## Files -/

/-- Whether there is no file at a path, or one that is accepted. -/
def isSound (host : Host) (path : String) : Bool :=
  (host.load path).isOk

/-- The configuration at a path, if there is a file that is accepted. -/
def config? (host : Host) (path : String) : Option LoadedConfig :=
  (host.load path).toOption.join

/-- A file is not accepted, or it is loaded as the configuration that it holds. -/
theorem load_cases (host : Host) (path : String) :
    (∃ error, host.load path = .error error ∧ host.isSound path = false ∧
        host.config? path = none) ∨
      host.load path = .ok (host.config? path) ∧ host.isSound path = true := by
  rw [isSound, config?]
  cases host.load path with
  | error error => exact Or.inl ⟨error, rfl, rfl, rfl⟩
  | ok found => exact Or.inr ⟨rfl, rfl⟩

theorem load_of_isSound (h : host.isSound path = true) :
    host.load path = .ok (host.config? path) := by
  obtain ⟨_, -, hno, -⟩ | ⟨hload, -⟩ := host.load_cases path
  · exact absurd h (by simp [hno])
  · exact hload

theorem load_congr {file : String → FileState} (h : file path = host.file path) :
    load { host with file } path = host.load path := by
  simp only [load, h]

theorem path_of_config? (h : host.config? path = some loaded) : loaded.path = path := by
  obtain ⟨_, -, -, hnone⟩ | ⟨hload, -⟩ := host.load_cases path
  · exact absurd h (by simp [hnone])
  rw [h, load] at hload
  split at hload
  · exact absurd hload (by simp)
  · exact absurd hload (by simp)
  · obtain ⟨config, -, hconfig⟩ := bind_eq_ok.mp hload
    rw [← Option.some.inj (Except.ok.inj hconfig)]

/-- Where every file is accepted, there is a configuration wherever there is a file. -/
theorem config?_isSome_iff (h : host.isSound path = true) :
    (host.config? path).isSome = true ↔ host.file path ≠ .absent := by
  have hload := load_of_isSound h
  rw [load] at hload
  split at hload
  · next hfile => simp [hfile, ← Except.ok.inj hload]
  · exact absurd hload (by simp)
  · next hfile =>
    obtain ⟨config, -, hconfig⟩ := bind_eq_ok.mp hload
    simp [hfile, ← Except.ok.inj hconfig]

/-! ## Files in a row -/

/-- The configurations at some paths in order, up to the first file that is not accepted. -/
def gather (host : Host) : List String → Except ConfigError (List LoadedConfig)
  | [] => .ok []
  | path :: paths => do
    let found ← host.load path
    let further ← gather host paths
    return found.toList ++ further

theorem gather_cons_of_error (h : host.load path = .error error) (paths : List String) :
    host.gather (path :: paths) = .error error := by
  rw [gather, h]
  rfl

theorem gather_cons_of_isSound (h : host.isSound path = true) (paths : List String) :
    host.gather (path :: paths) =
      (host.gather paths).map fun further => (host.config? path).toList ++ further := by
  rw [gather, load_of_isSound h]
  cases host.gather paths <;> rfl

theorem gather_append (host : Host) (front back : List String) :
    host.gather (front ++ back) = do
      let near ← host.gather front
      let far ← host.gather back
      return near ++ far := by
  induction front with
  | nil =>
    show host.gather back = _
    cases host.gather back <;> rfl
  | cons path front ih =>
    obtain ⟨error, hload, -⟩ | ⟨-, hsound⟩ := host.load_cases path
    · rw [List.cons_append, gather_cons_of_error hload, gather_cons_of_error hload]
      rfl
    · rw [List.cons_append, gather_cons_of_isSound hsound, gather_cons_of_isSound hsound, ih]
      cases host.gather front with
      | error _ => rfl
      | ok near =>
        cases host.gather back with
        | error _ => rfl
        | ok far => exact congrArg Except.ok (List.append_assoc ..).symm

/-- Files are gathered if and only if all of them are accepted. -/
theorem gather_eq_ok_iff :
    host.gather paths = .ok configs ↔
      (∀ path ∈ paths, host.isSound path = true) ∧
        configs = paths.filterMap host.config? := by
  induction paths generalizing configs with
  | nil =>
    rw [gather, Except.ok.injEq]
    simp only [List.not_mem_nil, false_implies, implies_true, true_and, List.filterMap_nil]
    exact eq_comm
  | cons path paths ih =>
    obtain ⟨error, hload, hno, -⟩ | ⟨-, hsound⟩ := host.load_cases path
    · simp [gather_cons_of_error hload, hno]
    have hmap : (host.gather paths).map (fun further => (host.config? path).toList ++ further) =
        .ok configs ↔ ∃ further, host.gather paths = .ok further ∧
          configs = (host.config? path).toList ++ further := by
      cases host.gather paths <;> simp [Except.map, eq_comm (b := configs)]
    have hconfigs : (path :: paths).filterMap host.config? =
        (host.config? path).toList ++ paths.filterMap host.config? := by
      rw [List.filterMap_cons]
      cases host.config? path <;> rfl
    rw [gather_cons_of_isSound hsound, List.forall_mem_cons, hmap, hconfigs]
    simp only [ih, hsound, true_and, and_assoc, exists_and_left, exists_eq_left]

/-- The error is that of the first file that is not accepted. -/
theorem gather_eq_error_iff :
    host.gather paths = .error error ↔
      ∃ front path back, paths = front ++ path :: back ∧
        (∀ p ∈ front, host.isSound p = true) ∧ host.load path = .error error := by
  induction paths with
  | nil => simp [gather]
  | cons first paths ih =>
    obtain ⟨cause, hload, hno, -⟩ | ⟨hload, hsound⟩ := host.load_cases first
    · rw [gather_cons_of_error hload]
      constructor
      · rintro ⟨rfl⟩
        exact ⟨[], first, paths, rfl, by simp, hload⟩
      · rintro ⟨front, path, back, heq, hfront, herror⟩
        cases front with
        | nil =>
          obtain ⟨rfl, -⟩ := List.cons.inj heq
          rw [hload, Except.error.injEq] at herror
          rw [herror]
        | cons _ front =>
          obtain ⟨rfl, -⟩ := List.cons.inj heq
          exact absurd (hfront first (by simp)) (by simp [hno])
    · have hmap : (host.gather paths).map (fun further => (host.config? first).toList ++ further) =
          .error error ↔ host.gather paths = .error error := by
        cases host.gather paths <;> simp [Except.map]
      rw [gather_cons_of_isSound hsound, hmap, ih]
      constructor
      · rintro ⟨front, path, back, rfl, hfront, herror⟩
        exact ⟨first :: front, path, back, rfl, List.forall_mem_cons.mpr ⟨hsound, hfront⟩, herror⟩
      · rintro ⟨front, path, back, heq, hfront, herror⟩
        cases front with
        | nil =>
          obtain ⟨rfl, -⟩ := List.cons.inj heq
          exact absurd herror (by simp [hload])
        | cons _ front =>
          obtain ⟨-, rfl⟩ := List.cons.inj heq
          exact ⟨front, path, back, rfl, (List.forall_mem_cons.mp hfront).2, herror⟩

/-! ## What the search asks for -/

/-- Whether the search goes no further up than to this path. -/
def endsSearch (host : Host) (path : String) : Bool :=
  (host.config? path).any fun loaded => loaded.config.root || loaded.config.noExternalLookup

/-- The files that the search asks for on its way up. -/
def stretch (host : Host) (start : Directory) : List String :=
  upTo host.endsSearch (start.upwards.map (·.configPath))

/-- The configurations on the way up, nearest first. -/
def found (host : Host) (start : Directory) : List LoadedConfig :=
  (host.stretch start).filterMap host.config?

/-- Whether no configuration on the way up is against the user's own: none says that nothing
further counts (only the one that ends the search can), and none names an environment
variable that is set to a true value. -/
def asksUser (host : Host) (start : Directory) : Bool :=
  !((host.found start).any (·.config.noExternalLookup) ||
    (host.found start).any host.isUserDisabledBy)

/-- The files that the search asks for, unless one of them is not accepted. -/
def asked (host : Host) (home : Option Directory) (start : Directory) : List String :=
  host.stretch start ++
    if host.asksUser start then home.toList.map (·.configPath) else []

/-- The files that the search reads: up to the first that is not accepted. -/
def read (host : Host) (home : Option Directory) (start : Directory) : List String :=
  upTo (fun path => !host.isSound path) (host.asked home start)

/-- Going up gathers the files up to the first that ends the search. -/
theorem climb_eq_gather (host : Host) (paths : List String) :
    host.climb paths = (host.gather (upTo host.endsSearch paths)).map fun configs =>
      (configs, configs.any (·.config.noExternalLookup)) := by
  induction paths with
  | nil => rfl
  | cons path paths ih =>
    rw [climb, upTo]
    obtain ⟨error, hload, -⟩ | ⟨hload, hsound⟩ := host.load_cases path
    · rw [gather_cons_of_error hload, hload]
      rfl
    rw [gather_cons_of_isSound hsound, hload, ok_bind, endsSearch]
    cases hconfig : host.config? path with
    | none =>
      rw [Option.any_none, if_neg (by simp), ih]
      cases host.gather (upTo host.endsSearch paths) <;> rfl
    | some loaded =>
      rw [Option.any_some]
      dsimp only
      cases hisolated : loaded.config.noExternalLookup with
      | true => simp [gather, Except.map, hisolated, pure, Except.pure]
      | false =>
        cases hroot : loaded.config.root with
        | true => simp [gather, Except.map, hisolated, pure, Except.pure]
        | false =>
          simp only [Bool.or_self, Bool.false_eq_true, if_false, ih]
          cases host.gather (upTo host.endsSearch paths) with
          | error _ => rfl
          | ok further => simp [Except.map, hisolated, bind, Except.bind, pure, Except.pure]

/-- On its way up the search gathers the files that it asks for there. -/
theorem ascend_eq_gather (host : Host) (start : Directory) :
    host.ascend start = (host.gather (host.stretch start)).map fun configs =>
      (configs, host.asksUser start) := by
  rw [ascend, climb_eq_gather]
  show Except.bind ((host.gather (host.stretch start)).map _) _ = _
  cases hgather : host.gather (host.stretch start) with
  | error _ => rfl
  | ok configs =>
    obtain rfl : configs = host.found start := (gather_eq_ok_iff.mp hgather).2
    rfl

/-- With a home directory the search gathers the files that it asks for. -/
theorem discover_eq_gather (host : Host) (home start : Directory) :
    host.discover home start = host.gather (host.asked (some home) start) := by
  rw [discover, ascend_eq_gather, asked, gather_append]
  show Except.bind ((host.gather (host.stretch start)).map _) _ = _
  cases host.gather (host.stretch start) with
  | error _ => rfl
  | ok configs =>
    dsimp only [Except.map, Except.bind]
    cases host.asksUser start with
    | false => exact congrArg Except.ok (List.append_nil _).symm
    | true =>
      simp only [if_true, gather, Option.toList_some, List.map_cons, List.map_nil]
      cases host.load home.configPath with
      | error _ => rfl
      | ok user =>
        cases user with
        | none => exact congrArg Except.ok (List.append_nil _).symm
        | some loaded => rfl

/-- The search gathers the files that it asks for.  If all of them are accepted, all that is
left to go wrong is that there is no home directory to look for the user's own in. -/
theorem search_eq_gather (host : Host) (home : Option Directory) (start : Directory) :
    host.search home start =
      match host.gather (host.asked home start) with
      | .error error => .error (.config error)
      | .ok configs =>
        if host.asksUser start = true ∧ home = none then .error .homeNotFound
        else .ok configs := by
  cases home with
  | some home =>
    rw [search, discover_eq_gather]
    cases host.gather (host.asked (some home) start) with
    | error _ => rfl
    | ok configs => simp [Except.mapError]
  | none =>
    rw [search, ascend_eq_gather, asked, Option.toList_none, List.map_nil, ite_self,
      List.append_nil]
    cases host.gather (host.stretch start) with
    | error _ => rfl
    | ok configs => simp [Except.map, Except.mapError, bind, Except.bind, pure, Except.pure]

theorem search_eq_ok_iff :
    host.search home start = .ok configs ↔
      host.gather (host.asked home start) = .ok configs ∧
        ¬(host.asksUser start = true ∧ home = none) := by
  rw [search_eq_gather]
  cases host.gather (host.asked home start) with
  | error _ => simp
  | ok found =>
    dsimp only
    split
    · next hnone => simp [hnone]
    · next hsome => rw [and_iff_left hsome, Except.ok.injEq, Except.ok.injEq]

theorem search_eq_config_iff :
    host.search home start = .error (.config error) ↔
      host.gather (host.asked home start) = .error error := by
  rw [search_eq_gather]
  cases host.gather (host.asked home start) with
  | error _ => simp
  | ok found =>
    dsimp only
    split <;> simp

theorem search_eq_homeNotFound_iff :
    host.search home start = .error .homeNotFound ↔
      (∃ configs, host.gather (host.asked home start) = .ok configs) ∧
        host.asksUser start = true ∧ home = none := by
  rw [search_eq_gather]
  cases host.gather (host.asked home start) with
  | error _ => simp
  | ok found =>
    dsimp only
    split
    · next hnone => simp [hnone]
    · next hsome => simp [hsome]

/-! ## Files that are not read -/

theorem climb_congr
    (h : ∀ path ∈ upTo (fun path => host.endsSearch path || !host.isSound path) paths,
      other.load path = host.load path) :
    other.climb paths = host.climb paths := by
  induction paths with
  | nil => rfl
  | cons path paths ih =>
    rw [upTo, List.forall_mem_cons] at h
    rw [climb, climb, h.1]
    obtain ⟨error, hload, -⟩ | ⟨hload, hsound⟩ := host.load_cases path
    · rw [hload]
      rfl
    rw [hload, ok_bind, ok_bind]
    have hfurther : host.endsSearch path = false → other.climb paths = host.climb paths := by
      intro hends
      refine ih ?_
      simpa [hends, hsound] using h.2
    rw [endsSearch] at hfurther
    cases hconfig : host.config? path with
    | none => exact hfurther (by rw [hconfig, Option.any_none])
    | some loaded =>
      dsimp only
      cases hisolated : loaded.config.noExternalLookup with
      | true => rfl
      | false =>
        cases hroot : loaded.config.root with
        | true => rfl
        | false => rw [hfurther (by simp [hconfig, hisolated, hroot])]

/-- On the way up it does not matter what is at the paths that are not read. -/
theorem ascend_congr {file : String → FileState}
    (h : ∀ path ∈ host.read home start, file path = host.file path) :
    ascend { host with file } start = host.ascend start := by
  have hclimb : climb { host with file } (start.upwards.map (·.configPath)) =
      host.climb (start.upwards.map (·.configPath)) := by
    refine climb_congr fun path hpath => load_congr (h path ?_)
    rw [upTo_or] at hpath
    exact mem_upTo_append hpath _
  rw [ascend, ascend, hclimb]
  rfl

/-- What is at the paths that are not read does not matter. -/
theorem search_congr {file : String → FileState}
    (h : ∀ path ∈ host.read home start, file path = host.file path) :
    search { host with file } home start = host.search home start := by
  cases home with
  | none => rw [search, search, ascend_congr h]
  | some home =>
    rw [search, search, discover, discover, ascend_congr h, ascend_eq_gather]
    congr 1
    show Except.bind ((host.gather (host.stretch start)).map _) _ =
      Except.bind ((host.gather (host.stretch start)).map _) _
    cases hgather : host.gather (host.stretch start) with
    | error _ => rfl
    | ok configs =>
      refine ite_congr rfl (fun hasks => ?_) fun _ => rfl
      -- The user's own file is asked for, and every file before it is accepted.
      have hsound := (gather_eq_ok_iff.mp hgather).1
      have hread : home.configPath ∈ host.read (some home) start := by
        rw [read, asked, hasks, upTo_append_of_forall (by simpa using hsound)]
        simp [upTo]
      have huser : load { host with file } home.configPath = host.load home.configPath :=
        load_congr (h _ hread)
      rw [huser]

/-! ## What the search finds -/

/-- The user's own configuration if it is asked for and there is one. -/
def user (host : Host) (home : Option Directory) (start : Directory) : Option LoadedConfig :=
  if host.asksUser start then home.bind fun home => host.config? home.configPath else none

theorem filterMap_asked (host : Host) (home : Option Directory) (start : Directory) :
    (host.asked home start).filterMap host.config? =
      host.found start ++ (host.user home start).toList := by
  rw [asked, user, List.filterMap_append, found]
  congr 1
  split
  · cases home with
    | none => rfl
    | some home => cases hconfig : host.config? home.configPath <;> simp [hconfig]
  · rfl

/-- The search for configurations.  Where every file that it asks for is accepted, it finds the
configurations on the way up, nearest first, and then the user's own if it is asked for and
there is one.  Where one is not accepted, it fails with the error of the first such file.  The
only other error is that the user's own is asked for and the user has no home directory.
Other files than those that are read may hold anything, or be missing. -/
theorem search_decides (host : Host) (home : Option Directory) (start : Directory) :
    (∀ configs, host.search home start = .ok configs ↔
        (∀ path ∈ host.asked home start, host.isSound path = true) ∧
          ¬(host.asksUser start = true ∧ home = none) ∧
          configs = host.found start ++ (host.user home start).toList) ∧
      (∀ error, host.search home start = .error (.config error) ↔
        ∃ front path back, host.asked home start = front ++ path :: back ∧
          (∀ p ∈ front, host.isSound p = true) ∧ host.load path = .error error) ∧
      (host.search home start = .error .homeNotFound ↔
        (∀ path ∈ host.asked home start, host.isSound path = true) ∧
          host.asksUser start = true ∧ home = none) ∧
      ∀ file : String → FileState, (∀ path ∈ host.read home start, file path = host.file path) →
        search { host with file } home start = host.search home start := by
  refine ⟨fun configs => ?_, fun error => ?_, ?_, fun file h => search_congr h⟩
  · rw [search_eq_ok_iff, gather_eq_ok_iff, filterMap_asked, and_assoc,
      and_comm (a := configs = _)]
  · rw [search_eq_config_iff, gather_eq_error_iff]
  · rw [search_eq_homeNotFound_iff]
    simp only [gather_eq_ok_iff, exists_and_left, exists_eq, and_true]

/-- `/w/p` ends the way up, so it does not matter what is in `/w`, which could not even be
read.  The user's own configuration comes last.  Where it cannot be read, or there is no home
directory, the search fails, unless `CI` is set to a true value.  The way up from `.` leads to
the directory that paths are relative to. -/
theorem search_decides_of_root :
    let file (user : FileState) : String → FileState := fun path =>
      if path = "/w/p/d/.pathexpr.toml" then .text "references.near='/near'"
      else if path = "/w/p/.pathexpr.toml" then
        .text "root=true\nroot-config-lookup-disable-env-var='CI'"
      else if path = "/w/.pathexpr.toml" then .unreadable
      else if path = ".pathexpr.toml" then .text "references.here='/here'"
      else if path = "/h/.pathexpr.toml" then user
      else .absent
    let host (user : FileState) (value : String) : Host :=
      { file := file user, environment := fun _ => some value }
    let valid := host (.text "references.far='/far'") "No"
    let emptied : String → FileState := fun path =>
      if path = "/w/.pathexpr.toml" then .absent else valid.file path
    let start : Directory := ["", "w", "p", "d"]
    let home : Option Directory := some ["", "h"]
    (∃ configs, valid.search home start = .ok configs ∧ configs.map (·.path) =
        ["/w/p/d/.pathexpr.toml", "/w/p/.pathexpr.toml", "/h/.pathexpr.toml"]) ∧
      search { valid with file := emptied } home start = valid.search home start ∧
      (host .unreadable "No").search home start =
        .error (.config (.unreadable "/h/.pathexpr.toml")) ∧
      valid.search none start = .error .homeNotFound ∧
      (∃ configs, (host .unreadable "yes").search none start = .ok configs ∧
        configs.map (·.path) = ["/w/p/d/.pathexpr.toml", "/w/p/.pathexpr.toml"]) ∧
      ∃ configs, valid.search home ["."] = .ok configs ∧ configs.map (·.path) =
        [".pathexpr.toml", "/h/.pathexpr.toml"] := by
  intro file host valid emptied start home
  obtain ⟨hfound, -, -, hother⟩ := search_decides valid home start
  obtain ⟨-, hfails, -, -⟩ := search_decides (host .unreadable "No") home start
  obtain ⟨-, -, hhomeless, -⟩ := search_decides valid none start
  obtain ⟨hdisabled, -, -, -⟩ := search_decides (host .unreadable "yes") none start
  obtain ⟨hrelative, -, -, -⟩ := search_decides valid home ["."]
  refine ⟨⟨_, (hfound _).mpr ⟨by decide +kernel, by decide +kernel, rfl⟩, by decide +kernel⟩,
    hother emptied (by decide +kernel), (hfails _).mpr ?_, hhomeless.mpr (by decide +kernel),
    ⟨_, (hdisabled _).mpr ⟨by decide +kernel, by decide +kernel, rfl⟩, by decide +kernel⟩,
    ⟨_, (hrelative _).mpr ⟨by decide +kernel, by decide +kernel, rfl⟩, by decide +kernel⟩⟩
  have hfile : (host .unreadable "No").file "/h/.pathexpr.toml" = .unreadable := by decide +kernel
  refine ⟨["/w/p/d/.pathexpr.toml", "/w/p/.pathexpr.toml"], "/h/.pathexpr.toml", [],
    by decide +kernel, by decide +kernel, ?_⟩
  rw [load, hfile]

/-! ## Files that are found twice -/

theorem map_path_filterMap (host : Host) (paths : List String) :
    (paths.filterMap host.config?).map (·.path) =
      paths.filter fun path => (host.config? path).isSome := by
  induction paths with
  | nil => rfl
  | cons path paths ih =>
    rw [List.filterMap_cons, List.filter_cons]
    cases hconfig : host.config? path with
    | none => simpa using ih
    | some loaded => simpa [path_of_config? hconfig] using ih

theorem nodup_stretch (host : Host) (start : Directory) : (host.stretch start).Nodup :=
  (Directory.nodup_configPaths start).sublist (upTo_sublist _ _)

end Host

namespace Surroundings

open Host

variable {s : Surroundings} {start : Directory} {configs : List LoadedConfig}

/-- The files that are found: those on the way up, and then the user's own if it is asked
for. -/
theorem map_path_of_discover (h : s.discover start = .ok configs) :
    configs.map (·.path) =
      (s.stretch start).filter (fun path => s.file path ≠ .absent) ++
        if s.asksUser start = true ∧ s.file s.userConfigPath ≠ .absent then [s.userConfigPath]
        else [] := by
  rw [discover, discover_eq_gather, gather_eq_ok_iff] at h
  obtain ⟨hsound, rfl⟩ := h
  have hfilter : ∀ path ∈ s.asked (some s.home) start,
      (s.config? path).isSome = decide (s.file path ≠ .absent) := fun path hpath => by
    rw [Bool.eq_iff_iff, decide_eq_true_iff, config?_isSome_iff (hsound path hpath)]
  rw [map_path_filterMap, List.filter_congr hfilter, asked, List.filter_append]
  congr 1
  by_cases hasks : s.asksUser start = true
  · simp [hasks, List.filter_cons, userConfigPath]
  · simp [hasks]

/-- The search finds no file twice unless it comes by the user's own on its way up and still
asks for it: then that one is found twice. -/
theorem nodup_paths_iff (h : s.discover start = .ok configs) :
    ((configs.map (·.path)).Nodup ↔
        ¬(s.userConfigPath ∈ s.stretch start ∧ s.asksUser start = true ∧
          s.file s.userConfigPath ≠ .absent)) ∧
      ∀ path, (configs.map (·.path)).count path ≤ if path = s.userConfigPath then 2 else 1 := by
  rw [map_path_of_discover h]
  have hnodup : ((s.stretch start).filter fun path => s.file path ≠ .absent).Nodup :=
    (nodup_stretch s.toHost start).filter _
  have hone := List.nodup_iff_count_le_one.mp hnodup
  by_cases hagain : s.asksUser start = true ∧ s.file s.userConfigPath ≠ .absent
  · rw [if_pos hagain]
    constructor
    · rw [(List.perm_append_singleton _ _).nodup_iff, List.nodup_cons, and_iff_left hnodup,
        List.mem_filter]
      simp [hagain.1, hagain.2]
    · intro path
      have hpath := hone path
      rw [List.count_append, List.count_singleton]
      by_cases huser : path = s.userConfigPath
      · subst huser
        simp only [BEq.rfl, if_true]
        omega
      · simp only [beq_iff_eq, Ne.symm huser, huser, if_false]
        omega
  · rw [if_neg hagain, List.append_nil]
    refine ⟨iff_of_true hnodup fun hboth => hagain hboth.2, fun path => ?_⟩
    have hpath := hone path
    split <;> omega

/-- The user's own configuration is above the start, but the way up ends before it, so it is
found once. -/
theorem nodup_paths_iff_of_root :
    let s : Surroundings :=
      { file := fun path =>
          if path = "h/w/.pathexpr.toml" then .text "root=true"
          else if path = "h/.pathexpr.toml" then .text "references.far='/far'"
          else .absent
        environment := fun _ => none
        home := ["h"] }
    ∃ configs, s.discover ["h", "w", "d"] = .ok configs ∧ (configs.map (·.path)).Nodup ∧
      configs.map (·.path) = ["h/w/.pathexpr.toml", "h/.pathexpr.toml"] := by
  intro s
  have h := (discover_eq_gather s.toHost s.home ["h", "w", "d"]).trans
    (gather_eq_ok_iff.mpr ⟨by decide +kernel, rfl⟩)
  refine ⟨_, h, (nodup_paths_iff h).1.mpr ?_, by decide +kernel⟩
  decide +kernel

/-- Where the search starts at the user's own configuration, which is said to be the root, that
one is found on the way up and then again. -/
theorem nodup_paths_fails_at_home :
    ∃ (s : Surroundings) (start : Directory) (configs : List LoadedConfig),
      s.discover start = .ok configs ∧ ¬(configs.map (·.path)).Nodup ∧
        configs.map (·.path) = ["h/.pathexpr.toml", "h/.pathexpr.toml"] := by
  let s : Surroundings :=
    { file := fun path => if path = "h/.pathexpr.toml" then .text "root=true" else .absent
      environment := fun _ => none
      home := ["h"] }
  have h : s.discover ["h"] = _ := (discover_eq_gather s.toHost s.home ["h"]).trans
    (gather_eq_ok_iff.mpr ⟨by decide +kernel, rfl⟩)
  exact ⟨s, ["h"], _, h, by decide +kernel, by decide +kernel⟩

end Surroundings

end PathSets
