import PathSets.Proofs.Composition
import PathSets.Proofs.RelocatedText

/-!
# Anchored expressions

Every relative path in an expression is seen from one absolute prim path: from the prims of
that path as many go away as the relative path goes up, and its names follow
(`Path.seenFrom`).  That works if there are so many, and if no property of the root comes
out (`Path.VisibleFrom`).

Anchoring an expression succeeds if and only if all paths in its leaves can be seen, also
those whose leaves are folded away, and gives the expression that is put together again from
what is seen (`Expression.anchorAt_of_parse`).  The result is absolute, so from wherever it is
seen it stays the same.
-/

namespace PathSets

/-! ## Paths -/

namespace Path

variable {p q anchor : Path} {start : Anchor} {prims names front : List String}

/-- How many times a path goes up. -/
def ups (p : Path) : Nat :=
  p.prims.count upElement

/-- What a relative path names as seen from an absolute one.  Other paths stay as they
are. -/
def seenFrom (p anchor : Path) : Path :=
  if p.anchor = .relative then
    { anchor := .absolute
      prims := anchor.prims.take (anchor.prims.length - p.ups) ++ p.prims.drop p.ups
      property := p.property }
  else p

/-- Whether a path can be seen from an absolute one: a relative path goes up no further than
that is deep, and is no property of the root. -/
def VisibleFrom (p anchor : Path) : Prop :=
  p.anchor = .relative →
    p.ups ≤ anchor.elementCount ∧ (p.isProperty = true → (p.seenFrom anchor).prims ≠ [])

instance (p anchor : Path) : Decidable (p.VisibleFrom anchor) :=
  inferInstanceAs (Decidable (_ → _ ∧ (_ → _)))

theorem descend_names (hnames : ∀ name ∈ names, name ≠ upElement) :
    descend front names = some (front ++ names) := by
  induction names generalizing front with
  | nil => rw [descend, List.append_nil]
  | cons name names ih =>
    have hname : name ≠ upElement := hnames name (by simp)
    rw [descend, if_neg (by simpa using hname),
      ih fun n hn => hnames n (List.mem_cons_of_mem name hn), List.append_assoc,
      List.singleton_append]

/-- Going up takes as many prims away from the end, if there are so many. -/
theorem descend_replicate_append (ups : Nat) (hnames : ∀ name ∈ names, name ≠ upElement) :
    descend front (List.replicate ups upElement ++ names) =
      if ups ≤ front.length then some (front.take (front.length - ups) ++ names) else none := by
  induction ups generalizing front with
  | zero => simp [descend_names hnames]
  | succ ups ih =>
    rw [List.replicate_succ, List.cons_append, descend, if_pos (by simp)]
    by_cases hnil : front = []
    · simp [hnil]
    have hpos : 0 < front.length := List.length_pos_iff.mpr hnil
    rw [if_neg (by simpa using hnil), ih, List.length_dropLast, List.dropLast_eq_take,
      List.take_take, Nat.sub_sub, Nat.add_comm 1 ups,
      Nat.min_eq_left (Nat.sub_le_sub_left (Nat.le_add_left 1 ups) _)]
    by_cases hle : ups + 1 ≤ front.length
    · rw [if_pos (by omega), if_pos hle]
    · rw [if_neg (by omega), if_neg hle]

/-- The `..` elements come first, and names follow. -/
theorem Descends.eq_ups (h : Descends start prims) :
    prims = List.replicate (prims.count upElement) upElement ++
        prims.drop (prims.count upElement) ∧
      ∀ name ∈ prims.drop (prims.count upElement), name ≠ upElement := by
  obtain ⟨ups, names, rfl, hnames, -⟩ := h
  have hno : ∀ name ∈ names, name ≠ upElement := fun name hname =>
    ne_upElement_of_isIdentifier (hnames name hname)
  have hcount : (List.replicate ups upElement ++ names).count upElement = ups := by
    rw [List.count_append, List.count_replicate_self,
      List.count_eq_zero_of_not_mem fun hmem => hno _ hmem rfl, Nat.add_zero]
  have hdrop : (List.replicate ups upElement ++ names).drop ups = names :=
    List.drop_left' List.length_replicate
  rw [hcount, hdrop]
  exact ⟨rfl, hno⟩

/-- From an absolute prim path a path is anchored if it can be seen, and gives what is
seen. -/
theorem WellFormed.anchorAt_eq_ok_iff (hp : p.WellFormed) (hanchor : anchor.isAnchor = true) :
    p.anchorAt anchor = .ok q ↔ p.VisibleFrom anchor ∧ q = p.seenFrom anchor := by
  by_cases hrelative : p.anchor = .relative
  swap
  · have hanchored : p.anchorAt anchor = .ok p := by simp [Path.anchorAt, hrelative]
    have hvisible : p.VisibleFrom anchor := fun heq => absurd heq hrelative
    rw [hanchored, seenFrom, if_neg hrelative, Except.ok.injEq, eq_comm]
    exact (and_iff_right hvisible).symm
  obtain ⟨hprims, hnames⟩ := hp.prims.eq_ups
  have hproperty : anchor.isProperty = false := by
    rw [isAnchor, Bool.and_eq_true, Bool.not_eq_true'] at hanchor
    exact hanchor.2
  have hcount : anchor.elementCount = anchor.prims.length := by
    have hnone : anchor.property = none := by simpa [isProperty] using hproperty
    rw [elementCount, hnone]
    rfl
  have hdescend : descend anchor.prims p.prims =
      if p.ups ≤ anchor.prims.length then some (p.seenFrom anchor).prims else none := by
    conv_lhs => rw [hprims, descend_replicate_append _ hnames]
    rw [seenFrom, if_pos hrelative]
    rfl
  have hseen : p.seenFrom anchor =
      { anchor := .absolute, prims := (p.seenFrom anchor).prims, property := p.property } := by
    rw [seenFrom, if_pos hrelative]
  rw [Path.anchorAt, if_neg (by simp [hrelative]), if_neg (by simp [hanchor]), hdescend,
    VisibleFrom, hcount]
  by_cases hle : p.ups ≤ anchor.prims.length
  · rw [if_pos hle]
    dsimp only
    split
    · next hroot =>
      have hroot' : (p.seenFrom anchor).prims = [] ∧ p.isProperty = true := by simpa using hroot
      simp [hrelative, hroot']
    · next hroot =>
      have hroot' : p.isProperty = true → (p.seenFrom anchor).prims ≠ [] := by
        intro hyes hnil
        simp [hyes, hnil] at hroot
      rw [← hseen, Except.ok.injEq, eq_comm]
      exact (and_iff_right fun _ => ⟨hle, hroot'⟩).symm
  · rw [if_neg hle]
    simp [hrelative, hle]

end Path

/-! ## Leaves -/

namespace Pattern

variable {p q : Pattern} {anchor : Path}

/-- The pattern with its base as seen from an absolute path. -/
def seenFrom (p : Pattern) (anchor : Path) : Pattern :=
  p.setBase (p.base.seenFrom anchor)

theorem WellFormed.anchorAt_eq_ok_iff (hp : p.WellFormed) (hanchor : anchor.isAnchor = true) :
    p.anchorAt anchor = .ok q ↔ p.base.VisibleFrom anchor ∧ q = p.seenFrom anchor := by
  rw [Pattern.anchorAt]
  split
  · next habsolute =>
    have hrelative : p.base.anchor ≠ .relative := by
      intro heq
      simp [isAbsolute, Path.isAbsolute, heq] at habsolute
    have hvisible : p.base.VisibleFrom anchor := fun heq => absurd heq hrelative
    have hseen : p.seenFrom anchor = p := by
      rw [seenFrom, Path.seenFrom, if_neg hrelative, hp.setBase_base]
    rw [hseen]
    exact ⟨fun h => ⟨hvisible, (Except.ok.inj h).symm⟩, fun h => congrArg Except.ok h.2.symm⟩
  · rw [bind_eq_ok]
    constructor
    · rintro ⟨base, hbase, h⟩
      obtain ⟨hvisible, rfl⟩ := (hp.base.anchorAt_eq_ok_iff hanchor).mp hbase
      exact ⟨hvisible, (Except.ok.inj h).symm⟩
    · rintro ⟨hvisible, rfl⟩
      exact ⟨_, (hp.base.anchorAt_eq_ok_iff hanchor).mpr ⟨hvisible, rfl⟩, rfl⟩

end Pattern

namespace Leaf

variable {l moved : Leaf} {anchor : Path}

/-- The path of a leaf: the base of a pattern, or the path of a reference. -/
def path : Leaf → Path
  | pattern p => p.base
  | reference r => r.path

/-- The leaf with its path as seen from an absolute one. -/
def seenFrom (anchor : Path) : Leaf → Leaf
  | pattern p => pattern (p.seenFrom anchor)
  | reference r => reference { r with path := r.path.seenFrom anchor }

theorem WellFormed.anchorAt_eq_ok_iff (hl : l.WellFormed) (hanchor : anchor.isAnchor = true) :
    l.anchorAt anchor = .ok moved ↔ l.path.VisibleFrom anchor ∧ moved = l.seenFrom anchor := by
  cases l with
  | pattern p =>
    have hp : p.WellFormed := hl
    rw [Leaf.anchorAt, bind_eq_ok]
    constructor
    · rintro ⟨q, hq, h⟩
      obtain ⟨hvisible, rfl⟩ := (hp.anchorAt_eq_ok_iff hanchor).mp hq
      exact ⟨hvisible, (Except.ok.inj h).symm⟩
    · rintro ⟨hvisible, rfl⟩
      exact ⟨_, (hp.anchorAt_eq_ok_iff hanchor).mpr ⟨hvisible, rfl⟩, rfl⟩
  | reference r =>
    have hr : r.WellFormed := hl
    rw [Leaf.anchorAt, bind_eq_ok]
    constructor
    · rintro ⟨path, hpath, h⟩
      obtain ⟨hvisible, rfl⟩ := (hr.path.anchorAt_eq_ok_iff hanchor).mp hpath
      exact ⟨hvisible, (Except.ok.inj h).symm⟩
    · rintro ⟨hvisible, rfl⟩
      exact ⟨_, (hr.path.anchorAt_eq_ok_iff hanchor).mpr ⟨hvisible, rfl⟩, rfl⟩

/-- What is seen from an absolute path is absolute. -/
theorem WellFormed.isAbsolute_seenFrom (hl : l.WellFormed) (anchor : Path) :
    (l.seenFrom anchor).isAbsolute = true := by
  have hseen : ∀ p : Path, (p.seenFrom anchor).isEmpty = true ∧ p.isEmpty = true ∨
      (p.seenFrom anchor).isAbsolute = true := by
    rintro ⟨_ | _ | _, prims, property⟩
    · exact Or.inl ⟨rfl, rfl⟩
    · exact Or.inr rfl
    · exact Or.inr rfl
  cases l with
  | pattern p =>
    have hp : p.WellFormed := hl
    rw [seenFrom, isAbsolute, Pattern.isAbsolute, Pattern.seenFrom, Pattern.base_setBase]
    refine (hseen p.base).resolve_left fun hempty => ?_
    rw [hp.notEmpty] at hempty
    exact absurd hempty.2 (by simp)
  | reference r =>
    rw [seenFrom, isAbsolute, Bool.or_eq_true]
    exact (hseen r.path).imp_left And.left

/-- An absolute leaf stays as it is. -/
theorem anchorAt_of_isAbsolute (h : l.isAbsolute = true) : l.anchorAt anchor = .ok l := by
  cases l with
  | pattern p =>
    have hp : p.isAbsolute = true := h
    rw [anchorAt, Pattern.anchorAt, if_pos hp]
    rfl
  | reference r =>
    have hr : (r.path.anchor != .relative) = true := by
      rw [isAbsolute] at h
      cases hanchor : r.path.anchor <;> simp [Path.isEmpty, Path.isAbsolute, hanchor] at h ⊢
    rw [anchorAt, Path.anchorAt, if_pos hr]
    rfl

end Leaf

/-! ## Expressions -/

namespace Expression

variable {e moved : Expression} {anchor : Path}

/-- The expression with every leaf as seen from an absolute path, put together again. -/
def seenFrom (e : Expression) (anchor : Path) : Expression :=
  e.mapLeaves fun l => of (.leaf (l.seenFrom anchor))

/-- From an absolute prim path an expression is anchored if the paths of all its leaves can
be seen. -/
theorem WellFormed.anchorAt_eq_ok_iff (he : e.WellFormed) :
    e.anchorAt anchor = .ok moved ↔
      anchor.isAnchor = true ∧ (∀ l ∈ e.leaves, l.path.VisibleFrom anchor) ∧
        moved = e.seenFrom anchor := by
  rw [Expression.anchorAt]
  by_cases hanchor : anchor.isAnchor = true
  swap
  · simp [hanchor]
  have hleaf : ∀ l ∈ e.leaves, ∀ found : Expression,
      (do return of (.leaf (← l.anchorAt anchor))) = Except.ok found ↔
        l.path.VisibleFrom anchor ∧ found = of (.leaf (l.seenFrom anchor)) := by
    intro l hl found
    rw [bind_eq_ok]
    constructor
    · rintro ⟨there, hthere, h⟩
      obtain ⟨hvisible, rfl⟩ := ((he.leaf hl).anchorAt_eq_ok_iff hanchor).mp hthere
      exact ⟨hvisible, (Except.ok.inj h).symm⟩
    · rintro ⟨hvisible, rfl⟩
      exact ⟨_, ((he.leaf hl).anchorAt_eq_ok_iff hanchor).mpr ⟨hvisible, rfl⟩, rfl⟩
  rw [if_neg (by simp [hanchor]),
    mapLeavesM_eq_ok_iff fun l hl found hfound => ((hleaf l hl found).mp hfound).2]
  constructor
  · rintro ⟨hall, rfl⟩
    exact ⟨hanchor, fun l hl => ((hleaf l hl _).mp (hall l hl)).1, rfl⟩
  · rintro ⟨-, hall, rfl⟩
    exact ⟨fun l hl => (hleaf l hl _).mpr ⟨hall l hl, rfl⟩, rfl⟩

theorem WellFormed.isAbsolute_seenFrom (he : e.WellFormed) (anchor : Path) :
    (e.seenFrom anchor).isAbsolute = true := by
  have hclosed : Closed fun e => ∀ l ∈ e.leaves, l.isAbsolute = true := closed_leaves rfl
  refine List.all_eq_true.mpr (hclosed.mapLeaves fun l hl x hx => ?_)
  obtain rfl := List.mem_singleton.mp hx
  exact (he.leaf hl).isAbsolute_seenFrom anchor

/-- An absolute expression stays as it is. -/
theorem Canonical.anchorAt_of_isAbsolute (he : e.Canonical) (habsolute : e.isAbsolute = true)
    (hanchor : anchor.isAnchor = true) : e.anchorAt anchor = .ok e := by
  have hleaf : ∀ l ∈ e.leaves, (do return of (.leaf (← l.anchorAt anchor))) =
      (.ok (of (.leaf l)) : Except InvalidPath Expression) := by
    intro l hl
    rw [Leaf.anchorAt_of_isAbsolute (List.all_eq_true.mp habsolute l hl)]
    rfl
  rw [Expression.anchorAt, if_neg (by simp [hanchor])]
  refine (mapLeavesM_eq_ok_iff fun l hl found hfound => ?_).mpr ⟨hleaf, he.mapLeaves_leaf.symm⟩
  exact (Except.ok.inj ((hleaf l hl).symm.trans hfound)).symm

/-- An expression that has been read can be anchored exactly at the absolute prim paths from
which the paths of all its leaves can be seen, and becomes what its leaves are as seen from
there.  The result is absolute, and anchoring it at any absolute prim path changes nothing. -/
theorem anchorAt_of_parse {text : String} (h : Expression.parse text = .ok e) (anchor : Path) :
    ((∃ moved, e.anchorAt anchor = .ok moved) ↔
        (anchor.isAbsolute = true ∧ anchor.isProperty = false) ∧
          ∀ l ∈ e.leaves, l.path.VisibleFrom anchor) ∧
      ∀ moved, e.anchorAt anchor = .ok moved →
        moved = e.seenFrom anchor ∧ moved.isAbsolute = true ∧
          ∀ other : Path, other.isAbsolute = true → other.isProperty = false →
            moved.anchorAt other = .ok moved := by
  have he : e.WellFormed := (wellFormed_of_parse h).1
  have hkind : ∀ {anchor : Path}, anchor.isAnchor = true ↔
      anchor.isAbsolute = true ∧ anchor.isProperty = false := by simp [Path.isAnchor]
  constructor
  · rw [← hkind]
    constructor
    · rintro ⟨moved, hmoved⟩
      obtain ⟨hanchor, hvisible, -⟩ := he.anchorAt_eq_ok_iff.mp hmoved
      exact ⟨hanchor, hvisible⟩
    · rintro ⟨hanchor, hvisible⟩
      exact ⟨_, he.anchorAt_eq_ok_iff.mpr ⟨hanchor, hvisible, rfl⟩⟩
  · intro moved hmoved
    obtain ⟨-, -, rfl⟩ := he.anchorAt_eq_ok_iff.mp hmoved
    have habsolute := he.isAbsolute_seenFrom anchor
    have hcanonical : (e.seenFrom anchor).Canonical :=
      closed_canonical.mapLeaves fun _ _ => trivial
    exact ⟨rfl, habsolute, fun other hother hproperty =>
      hcanonical.anchorAt_of_isAbsolute habsolute (hkind.mpr ⟨hother, hproperty⟩)⟩

/-- From `/w` the pattern `..//` is everything, and the difference and both complements are
folded away.  From the root nothing above it can be seen, and neither can a property of it. -/
theorem anchorAt_of_parse_refolded :
    let e := of (.binary .juxtaposition
      (.complement (.binary .difference
        (.leaf (.pattern ⟨⟨.relative, [".."], none⟩, [.stretch], false⟩))
        (.leaf (.reference ⟨⟨.relative, ["..", "a"], none⟩, "x"⟩))))
      (.leaf (.pattern ⟨⟨.relative, [], some "y"⟩, [], true⟩)))
    let w : Path := ⟨.absolute, ["w"], none⟩
    let moved := of (.binary .juxtaposition (.leaf (.reference ⟨⟨.absolute, ["a"], none⟩, "x"⟩))
      (.leaf (.pattern ⟨⟨.absolute, ["w"], some "y"⟩, [], true⟩)))
    Expression.parse "~(..// - %../a:x) .y" = .ok e ∧ e.anchorAt w = .ok moved ∧
      moved.isAbsolute = true ∧ moved.anchorAt .root = .ok moved ∧
      ¬∃ moved, e.anchorAt .root = .ok moved := by
  intro e w moved
  have hparse : Expression.parse "~(..// - %../a:x) .y" = .ok e := by decide +kernel
  obtain ⟨hat, hmoved⟩ := anchorAt_of_parse hparse w
  obtain ⟨found, hfound⟩ := hat.mpr ⟨⟨rfl, rfl⟩, by decide⟩
  obtain ⟨rfl, habsolute, hagain⟩ := hmoved found hfound
  have hseen : e.seenFrom w = moved := by decide
  rw [hseen] at hfound habsolute hagain
  refine ⟨hparse, hfound, habsolute, hagain .root rfl rfl, ?_⟩
  rw [(anchorAt_of_parse hparse .root).1]
  decide

end Expression

end PathSets
