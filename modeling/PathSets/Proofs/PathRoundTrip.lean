import PathSets.Proofs.Relocation

/-!
# The text of a path spells it

`Path.Reachable` are the paths that parsing, going up and down, going back and anchoring
give, in any order and any number of times.  All of them are well formed
(`Path.Reachable.wellFormed`), so they are read back from their text.

Reading adds the elements of a text one by one, and each stays what it was
(`writtenElements_of_readElements`).  Only a leading `.` leaves no trace.  So a path has
no other text than its own, and the one with `./` before it if the path is relative and
has prims (`parse_text_of_reachable`).

Moving a path is not among the steps: what it gives can be read back from its text if and
only if the path stays what it is or can be moved (`parse_text_rebase_iff`).
-/

namespace PathSets.Path

variable {p q old new : Path} {first : Bool} {name : String} {property : Option String}
  {element text : List Char} {elements : List (List Char)}

/-! ## Reachable paths -/

/-- The paths that can be reached.  A step that is refused leads nowhere. -/
inductive Reachable : Path → Prop
  | empty : Reachable empty
  | root : Reachable root
  | here : Reachable here
  | parse {text : String} {p : Path} (h : parse text = .ok p) : Reachable p
  | child {p q : Path} {name : String} (hp : Reachable p) (h : p.child name = .ok q) :
      Reachable q
  | withProperty {p q : Path} {name : String} (hp : Reachable p)
      (h : p.withProperty name = .ok q) : Reachable q
  | parent {p q : Path} (hp : Reachable p) (h : p.parent? = some q) : Reachable q
  | lineage {p q : Path} (hp : Reachable p) (h : q ∈ p.lineage) : Reachable q
  | anchorAt {p q anchor : Path} (hp : Reachable p) (hanchor : Reachable anchor)
      (h : p.anchorAt anchor = .ok q) : Reachable q

/-- The front of a path, which has no property. -/
theorem WellFormed.take (hp : p.WellFormed) (n : Nat) :
    WellFormed { anchor := p.anchor, prims := p.prims.take n } where
  empty hempty := by
    have hnil := (hp.empty hempty).1
    exact ⟨by simp [hnil], rfl⟩
  prims := hp.prims.take n
  property := nofun

theorem WellFormed.parent (hp : p.WellFormed) (h : p.parent? = some q) : q.WellFormed := by
  rw [parent?] at h
  split at h
  · obtain rfl := Option.some.inj h
    have hfront := hp.take p.prims.length
    rwa [List.take_length] at hfront
  next hproperty =>
  split at h
  · exact absurd h (by simp)
  · obtain rfl := Option.some.inj h
    have hnone : p.property = none := by simpa [isProperty] using hproperty
    rw [List.dropLast_eq_take, hnone]
    exact hp.take _

theorem WellFormed.lineage (hp : p.WellFormed) (h : q ∈ p.lineage) : q.WellFormed := by
  simp only [Path.lineage, List.mem_append, List.mem_map, List.mem_range] at h
  rcases h with ⟨i, -, rfl⟩ | h
  · exact hp.take (i + 1)
  · split at h
    · rwa [List.mem_singleton.mp h]
    · exact absurd h (by simp)

/-- Everything that can be reached is well formed. -/
theorem Reachable.wellFormed (h : p.Reachable) : p.WellFormed := by
  induction h with
  | empty => exact wellFormed_empty
  | root => exact wellFormed_root
  | here => exact wellFormed_here
  | parse h => exact wellFormed_of_parse h
  | child _ h ih => exact ih.child h
  | withProperty _ h ih => exact ih.withProperty h
  | parent _ h ih => exact ih.parent h
  | lineage _ h ih => exact ih.lineage h
  | anchorAt _ _ h ih ihAnchor => exact ih.anchorAt ihAnchor h

/-! ## Written elements -/

/-- The elements of the written form, of which there are none in `/` and in `.`. -/
def writtenElements (p : Path) : List (List Char) :=
  if p.elementCount = 0 then [] else spelled p.prims (writeProperty p.property)

theorem writtenElements_of_prims (h : p.prims ≠ []) :
    p.writtenElements = spelled p.prims (writeProperty p.property) := by
  rw [writtenElements, if_neg (by simp [elementCount, h])]

theorem writtenElements_of_property (h : p.property = none) :
    p.writtenElements = p.prims.map String.toList := by
  by_cases hne : p.prims = []
  · simp [writtenElements, elementCount, hne, h]
  · rw [writtenElements_of_prims hne, h, writeProperty, spelled_nil hne]

theorem writtenElements_append (hp : p.property = none) :
    writtenElements { p with prims := p.prims ++ [name], property } =
      p.writtenElements ++ [name.toList ++ writeProperty property] := by
  rw [writtenElements_of_prims (by simp), writtenElements_of_property hp,
    spelled_append (by simp), spelled]

theorem isHere_iff_writtenElements (hanchor : p.anchor = .relative) :
    p.isHere = true ↔ p.writtenElements = [] := by
  obtain ⟨anchor, prims, property⟩ := p
  obtain rfl : anchor = .relative := hanchor
  cases property <;> simp [isHere, isProperty, writtenElements, elementCount, spelled_ne_nil]

theorem intercalate_writtenElements (p : Path) :
    ['/'].intercalate p.writtenElements = writePrims p.prims ++ writeProperty p.property := by
  by_cases hcount : p.elementCount = 0
  · obtain ⟨hprims, hproperty⟩ : p.prims = [] ∧ p.property = none := by
      simpa [elementCount, Option.toList_eq_nil_iff] using hcount
    simp [writtenElements, hcount, hprims, hproperty, writePrims, writeProperty]
  · rw [writtenElements, if_neg hcount, intercalate_spelled]

/-! ## Reading -/

/-- What reading an element does: a leading `.` changes nothing, and everything else becomes
the next element of the path, with a prim unless it comes first. -/
theorem readElements_cases (hp : p.property = none) (hfirst : first = true → p.prims = [])
    (h : readElements p first (element :: elements) = .ok q) :
    (element = ['.'] ∧ first = true ∧ p.isAbsolute = false ∧
        readElements p false elements = .ok q) ∨
      ∃ next, next.writtenElements = p.writtenElements ++ [element] ∧
        (first = false → next.prims.length = p.prims.length + 1) ∧
        (elements ≠ [] → next.property = none) ∧ readElements next false elements = .ok q := by
  unfold readElements at h
  split at h
  · exact absurd h (by simp)
  · split at h
    · exact absurd h (by simp)
    next hhere =>
    obtain ⟨habsolute, hfirst'⟩ : p.isAbsolute = false ∧ first = true := by simpa using hhere
    exact Or.inl ⟨rfl, hfirst', habsolute, h⟩
  · split at h
    · exact absurd h (by simp)
    refine Or.inr ⟨{ p with prims := p.prims ++ [upElement] }, ?_, by simp, fun _ => hp, h⟩
    have hnext : writtenElements { p with prims := p.prims ++ [upElement], property := none } = _ :=
      writtenElements_append hp
    simpa [hp, upElement_toList, writeProperty] using hnext
  · obtain ⟨next, hnext, h⟩ := bind_eq_ok.mp h
    refine Or.inr ⟨next, ?_⟩
    obtain ⟨front, property, rfl, hlast, -, ⟨rfl, -, halone, hsome, rfl⟩ | ⟨-, rfl⟩⟩ :=
      readNamed_cases hp hnext
    · -- A property by itself is the only element.
      rw [Bool.and_eq_true] at halone
      have hnil := hfirst halone.1
      obtain ⟨x, rfl⟩ := Option.isSome_iff_exists.mp hsome
      refine ⟨by simp [writtenElements, elementCount, hnil, hp, spelled], ?_, fun hne => ?_, h⟩
      · simp [halone.1]
      · exact absurd (List.isEmpty_iff.mp halone.2) hne
    · refine ⟨?_, by simp, fun hne => ?_, h⟩
      · rw [writtenElements_append hp, String.toList_ofList]
      · rw [← Option.not_isSome_iff_eq_none]
        exact fun hsome => hne (List.isEmpty_iff.mp (hlast hsome))

/-- Behind the first element, reading keeps all elements, each with its prim. -/
theorem writtenElements_of_readElements (hp : elements ≠ [] → p.property = none)
    (h : readElements p false elements = .ok q) :
    q.writtenElements = p.writtenElements ++ elements ∧
      q.prims.length = p.prims.length + elements.length := by
  induction elements generalizing p with
  | nil =>
    obtain rfl := Except.ok.inj h
    exact ⟨(List.append_nil _).symm, rfl⟩
  | cons element elements ih =>
    have hfirst : false = true → p.prims = [] := nofun
    obtain ⟨-, hno, -⟩ | ⟨next, hnext, hprims, hopen, h⟩ :=
      readElements_cases (hp (by simp)) hfirst h
    · exact absurd hno (by simp)
    · obtain ⟨hq, hcount⟩ := ih hopen h
      rw [hq, hnext, List.append_assoc, List.singleton_append, hcount, hprims rfl,
        List.length_cons]
      exact ⟨rfl, by omega⟩

/-- The elements of a body are those of the path that it spells, perhaps behind a `.`.
Behind a `.` there are only prims, and no property by itself. -/
theorem splitOn_of_readBody {anchor : Anchor} {body : List Char} (hbody : body ≠ [])
    (h : readBody anchor body = .ok q) :
    body.splitOn '/' = q.writtenElements ∨
      anchor ≠ .absolute ∧ body.splitOn '/' = ['.'] :: q.writtenElements ∧
        q.prims.length = q.writtenElements.length := by
  rw [readBody, if_neg (by simpa using hbody)] at h
  have hnone : writtenElements { anchor } = [] := rfl
  obtain ⟨element, elements, hsplit⟩ := List.exists_cons_of_ne_nil (List.splitOn_ne_nil '/' body)
  rw [hsplit] at h ⊢
  obtain ⟨rfl, -, habsolute, h⟩ | ⟨next, hnext, -, hopen, h⟩ :=
    readElements_cases rfl (fun _ => rfl) h
  · obtain ⟨hq, hcount⟩ := writtenElements_of_readElements (fun _ => rfl) h
    rw [hnone, List.nil_append] at hq
    rw [hq, hcount]
    exact Or.inr ⟨by simpa [isAbsolute] using habsolute, rfl, by simp⟩
  · rw [(writtenElements_of_readElements hopen h).1, hnext, hnone]
    exact Or.inl rfl

/-! ## Texts -/

/-- A path is spelled by its own text, and a relative path that has prims also with `./`
before it. -/
def Spells (text : List Char) (p : Path) : Prop :=
  text = p.write ∨ p.anchor = .relative ∧ p.prims ≠ [] ∧ text = '.' :: '/' :: p.write

theorem write_relative (hanchor : p.anchor = .relative) (hne : p.writtenElements ≠ []) :
    p.write = ['/'].intercalate p.writtenElements := by
  have hhere : ¬p.isHere = true := (isHere_iff_writtenElements hanchor).not.mpr hne
  rw [intercalate_writtenElements]
  simp only [write, hanchor, if_neg hhere]

theorem spells_of_readBody (htext : text ≠ []) (h : readBody .relative text = .ok q) :
    Spells text q := by
  have hanchor : q.anchor = .relative := (wellFormed_of_readBody (by simp) h).2
  have hjoin : ['/'].intercalate (text.splitOn '/') = text := List.intercalate_splitOn '/'
  rcases splitOn_of_readBody htext h with hsplit | ⟨-, hsplit, hcount⟩
  · have hne : q.writtenElements ≠ [] := hsplit ▸ List.splitOn_ne_nil '/' text
    rw [hsplit, ← write_relative hanchor hne] at hjoin
    exact Or.inl hjoin.symm
  by_cases hnil : q.writtenElements = []
  · -- No element is left, so the only one was `.`.
    obtain rfl := eq_here_of_isHere ((isHere_iff_writtenElements hanchor).mpr hnil)
    rw [hsplit, hnil] at hjoin
    exact Or.inl hjoin.symm
  · have hprims : q.prims ≠ [] := by
      rwa [← List.length_pos_iff, hcount, List.length_pos_iff]
    rw [hsplit, List.intercalate_cons_of_ne_nil hnil, ← write_relative hanchor hnil] at hjoin
    exact Or.inr ⟨hanchor, hprims, hjoin.symm⟩

theorem spells_of_readBody_absolute {body : List Char} (h : readBody .absolute body = .ok q) :
    Spells ('/' :: body) q := by
  left
  by_cases hbody : body = []
  · subst hbody
    obtain rfl := Except.ok.inj h
    rfl
  have hanchor : q.anchor = .absolute := (wellFormed_of_readBody (by simp) h).2
  rcases splitOn_of_readBody hbody h with hsplit | ⟨hno, -⟩
  · have hjoin : ['/'].intercalate (body.splitOn '/') = body := List.intercalate_splitOn '/'
    rw [hsplit, intercalate_writtenElements] at hjoin
    rw [write, hanchor, ← hjoin]
    rfl
  · exact absurd rfl hno

/-- Reading `./` before a written path changes nothing. -/
theorem read_here_write (hp : p.WellFormed) (hanchor : p.anchor = .relative)
    (hprims : p.prims ≠ []) : read ('.' :: '/' :: p.write) = .ok p := by
  have hne : p.writtenElements ≠ [] := by
    rw [writtenElements_of_prims hprims]
    exact spelled_ne_nil _ _
  have hsplit : ('.' :: '/' :: p.write).splitOn '/' =
      ['.'] :: spelled p.prims (writeProperty p.property) := by
    rw [write_relative hanchor hne, intercalate_writtenElements, ← splitOn_write hp]
    exact List.splitOn_append_cons_self_of_not_mem (show '/' ∉ ['.'] by decide) _
  have hread := readElements_spelled hp hprims false
  rw [hanchor] at hread
  rw [read, readBody, if_neg (by simp), hsplit, readElements, if_neg (by simp [isAbsolute])]
  · exact hread
  · simp
  · simp

/-- A text is read as a path if and only if it spells the path and the path is well
formed. -/
theorem read_eq_ok_iff : read text = .ok p ↔ p.WellFormed ∧ Spells text p := by
  refine ⟨fun h => ⟨wellFormed_of_read h, ?_⟩, ?_⟩
  · unfold read at h
    split at h
    · obtain rfl := Except.ok.inj h
      exact Or.inl rfl
    · exact spells_of_readBody_absolute h
    · next hne _ => exact spells_of_readBody hne h
  · rintro ⟨hp, rfl | ⟨hanchor, hprims, rfl⟩⟩
    · exact read_write hp
    · exact read_here_write hp hanchor hprims

theorem parse_text (hp : p.WellFormed) : parse p.text = .ok p := by
  rw [parse, Path.text, String.toList_ofList]
  exact mapError_eq_ok.mpr (read_write hp)

/-- The paths that can be reached are those that can be written and read back. -/
theorem reachable_iff_wellFormed : p.Reachable ↔ p.WellFormed :=
  ⟨Reachable.wellFormed, fun hp => .parse (parse_text hp)⟩

theorem spells_toList_iff (text : String) (p : Path) :
    Spells text.toList p ↔
      p.text = text ∨ p.anchor = .relative ∧ p.prims ≠ [] ∧ "./" ++ p.text = text := by
  have hplain : p.text = text ↔ text.toList = p.write := by
    rw [← String.toList_inj, Path.text, String.toList_ofList, eq_comm]
  have hhere : "./" ++ p.text = text ↔ text.toList = '.' :: '/' :: p.write := by
    rw [← String.toList_inj, String.toList_append, Path.text, String.toList_ofList,
      String.toList_ofList, eq_comm]
    rfl
  rw [Spells, hplain, hhere]

/-- The text of a path that has been reached is read as the path, and no other text is,
except that a relative path with prims may have `./` before it. -/
theorem parse_text_of_reachable :
    (∀ p : Path, p.Reachable → parse p.text = .ok p) ∧
      ∀ (text : String) (p : Path), parse text = .ok p ↔
        p.Reachable ∧
          (p.text = text ∨ p.anchor = .relative ∧ p.prims ≠ [] ∧ "./" ++ p.text = text) := by
  refine ⟨fun p hp => parse_text hp.wellFormed, fun text p => ?_⟩
  rw [parse, mapError_eq_ok, read_eq_ok_iff, spells_toList_iff, reachable_iff_wellFormed]

/-- Going up from `../rig` leaves `..`, and once more `../..`.  From there a property is
reached, which is absolute as seen from `/World/set/prop`. -/
theorem parse_text_of_reachable_up :
    let q : Path := ⟨.relative, ["..", "..", "b"], some "x:y"⟩
    let anchored : Path := ⟨.absolute, ["World", "b"], some "x:y"⟩
    (q.Reachable ∧ q.text = "../../b.x:y" ∧ parse q.text = .ok q) ∧
      (anchored.Reachable ∧ anchored.text = "/World/b.x:y" ∧ parse anchored.text = .ok anchored) ∧
      parse "./../../b.x:y" = .ok q ∧ (parse "./.x").isOk = false := by
  intro q anchored
  have hrig : Reachable ⟨.relative, ["..", "rig"], none⟩ :=
    .parse (show parse "../rig" = _ by decide +kernel)
  have hup : Reachable ⟨.relative, [".."], none⟩ := hrig.child (show child _ ".." = _ by decide)
  have hupUp : Reachable ⟨.relative, ["..", ".."], none⟩ :=
    hup.child (show child _ ".." = _ by decide)
  have hdown : Reachable ⟨.relative, ["..", "..", "b"], none⟩ :=
    hupUp.child (show child _ "b" = _ by decide)
  have hq : q.Reachable := hdown.withProperty (show withProperty _ "x:y" = _ by decide +kernel)
  have hplace : Reachable ⟨.absolute, ["World", "set", "prop"], none⟩ :=
    .parse (show parse "/World/set/prop" = _ by decide +kernel)
  have hanchored : anchored.Reachable := hq.anchorAt hplace (by decide +kernel)
  have htext : q.text = "../../b.x:y" := by decide +kernel
  refine ⟨⟨hq, htext, parse_text_of_reachable.1 q hq⟩,
    ⟨hanchored, by decide +kernel, parse_text_of_reachable.1 anchored hanchored⟩, ?_,
    by decide +kernel⟩
  exact (parse_text_of_reachable.2 _ q).mpr
    ⟨hq, Or.inr ⟨rfl, List.cons_ne_nil _ _, by rw [htext]; decide +kernel⟩⟩

/-! ## Moved paths -/

theorem parse_text_iff : parse p.text = .ok p ↔ p.WellFormed :=
  ⟨wellFormed_of_parse, parse_text⟩

/-- Of the paths that have been read, one is moved to behind another.  Either it stays what it
is, or it was below `old` and what it has behind `old` stands behind `new`.  The path that this
gives is read from its own text if the path stays what it is or can be moved, and otherwise
it is not. -/
theorem parse_text_rebase_iff {source target : String} (hp : parse source = .ok p)
    (hnew : parse target = .ok new) :
    (parse (p.rebase old new).text = .ok (p.rebase old new) ↔
        p.rebase old new = p ∨ p.CanMove old new) ∧
      (p.rebase old new = p ∨
        p.isWithin old = true ∧ (p.rebase old new).anchor = new.anchor ∧
          ∃ rest, p.elements = old.elements ++ rest ∧
            (p.rebase old new).elements = new.elements ++ rest) := by
  refine ⟨?_, elements_rebase p old new⟩
  rw [parse_text_iff]
  exact wellFormed_rebase_iff (wellFormed_of_parse hp) (wellFormed_of_parse hnew)

/-- A property two prims below the path that is moved is found below where it is moved to,
although that goes up. -/
theorem parse_text_rebase_iff_geom :
    let p : Path := ⟨.absolute, ["World", "rig", "geom"], some "size"⟩
    let old : Path := ⟨.absolute, ["World"], none⟩
    let new : Path := ⟨.relative, ["..", "asset"], none⟩
    parse "/World/rig/geom.size" = .ok p ∧ parse "/World" = .ok old ∧
      parse "../asset" = .ok new ∧ p.CanMove old new ∧
      (p.rebase old new).text = "../asset/rig/geom.size" ∧
      parse (p.rebase old new).text = .ok (p.rebase old new) := by
  intro p old new
  have hp : parse "/World/rig/geom.size" = .ok p := by decide +kernel
  have hnew : parse "../asset" = .ok new := by decide +kernel
  have hcan : p.CanMove old new := by decide +kernel
  exact ⟨hp, by decide +kernel, hnew, hcan, by decide +kernel,
    (parse_text_rebase_iff hp hnew).1.mpr (Or.inr hcan)⟩

/-- `..` is below `.`, so moving it to `/a` leaves the root behind `a`: what is written is
`/a/..`, and no path is read from it.  A property that comes to stand on `..` is lost likewise. -/
theorem parse_text_rebase_fails_up :
    (∃ p old new : Path, parse ".." = .ok p ∧ parse "." = .ok old ∧ parse "/a" = .ok new ∧
      p.rebase old new ≠ p ∧ (p.rebase old new).text = "/a/.." ∧
      (parse (p.rebase old new).text).isOk = false) ∧
    ∃ p old new : Path, parse "/a.x" = .ok p ∧ parse "/a" = .ok old ∧ parse ".." = .ok new ∧
      p.rebase old new ≠ p ∧ (p.rebase old new).text = "...x" ∧
      (parse (p.rebase old new).text).isOk = false := by
  refine ⟨⟨⟨.relative, [".."], none⟩, here, ⟨.absolute, ["a"], none⟩, ?_⟩,
    ⟨⟨.absolute, ["a"], some "x"⟩, ⟨.absolute, ["a"], none⟩, ⟨.relative, [".."], none⟩, ?_⟩⟩
  · decide +kernel
  · decide +kernel

end PathSets.Path
