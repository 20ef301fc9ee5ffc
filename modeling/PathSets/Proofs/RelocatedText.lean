import PathSets.Proofs.ExpressionForm
import PathSets.Proofs.Relocation

/-!
# Reading moved expressions back

Moving an expression puts other leaves in the places of its leaves.  It adds no levels
(`Expression.height_mapLeaves_le`), so the text of what comes out is read back if the
moved leaves can be.

Not every moved leaf can be.  A pattern needs what its base needs (`Pattern.CanMove`), and
a reference may not be moved to a property (`Leaf.CanMove`).  The operations look for none
of this (`parse_text_fails_of_moved`), and nothing else keeps a text from being read back
(`parse_text_of_moved`).
-/

namespace PathSets

/-! ## Leaves -/

namespace Reference

variable {r : Reference} {old new anchor path : Path}

/-- Whether the reference can be moved: its path can, and does not become a property. -/
def CanMove (r : Reference) (old new : Path) : Prop :=
  r.path.CanMove old new ∧ (r.path.rebase old new).isProperty = false

instance (r : Reference) (old new : Path) : Decidable (r.CanMove old new) :=
  inferInstanceAs (Decidable (_ ∧ _))

theorem WellFormed.anchorAt (hr : r.WellFormed) (hanchor : anchor.WellFormed)
    (h : r.path.anchorAt anchor = .ok path) : WellFormed { r with path } := by
  refine ⟨hr.path.anchorAt hanchor h, ?_, hr.name⟩
  obtain ⟨-, rfl⟩ | ⟨-, -, prims, -, -, rfl⟩ := Path.anchorAt_cases h
  · exact hr.property
  · exact hr.property

theorem WellFormed.rebase_iff (hr : r.WellFormed) (hnew : new.WellFormed) :
    WellFormed { r with path := r.path.rebase old new } ↔
      r.path.rebase old new = r.path ∨ r.CanMove old new := by
  constructor
  · intro hmoved
    exact ((Path.wellFormed_rebase_iff hr.path hnew).mp hmoved.path).imp_right
      fun hcan => ⟨hcan, hmoved.property⟩
  · rintro (heq | hcan)
    · rwa [heq]
    · exact ⟨hr.path.rebase hnew hcan.1, hcan.2, hr.name⟩

end Reference

namespace Leaf

variable {l moved : Leaf} {old new anchor : Path}

def CanAnchor (anchor : Path) : Leaf → Prop
  | pattern p => p.CanAnchor anchor
  | reference _ => True

def CanMove (old new : Path) : Leaf → Prop
  | pattern p => p.CanMove old new
  | reference r => r.CanMove old new

instance (anchor : Path) : (l : Leaf) → Decidable (l.CanAnchor anchor)
  | pattern p => inferInstanceAs (Decidable (p.CanAnchor anchor))
  | reference _ => inferInstanceAs (Decidable True)

instance (old new : Path) : (l : Leaf) → Decidable (l.CanMove old new)
  | pattern p => inferInstanceAs (Decidable (p.CanMove old new))
  | reference r => inferInstanceAs (Decidable (r.CanMove old new))

/-- An anchored leaf can be read back exactly if the leaf can be anchored. -/
theorem WellFormed.anchorAt_iff (hl : l.WellFormed) (hanchor : anchor.WellFormed)
    (h : l.anchorAt anchor = .ok moved) : moved.WellFormed ↔ l.CanAnchor anchor := by
  cases l with
  | pattern p =>
    obtain ⟨q, hq, h⟩ := bind_eq_ok.mp h
    obtain rfl := Except.ok.inj h
    exact Pattern.WellFormed.anchorAt_iff hl hanchor hq
  | reference r =>
    obtain ⟨path, hpath, h⟩ := bind_eq_ok.mp h
    obtain rfl := Except.ok.inj h
    exact iff_of_true (Reference.WellFormed.anchorAt hl hanchor hpath) trivial

/-- A moved leaf can be read back exactly if it stays what it is or the leaf can be moved. -/
theorem WellFormed.rebase_iff (hl : l.WellFormed) (hnew : new.WellFormed) :
    (l.rebase old new).WellFormed ↔ l.rebase old new = l ∨ l.CanMove old new := by
  cases l with
  | pattern p =>
    rw [Leaf.rebase, Leaf.pattern.injEq]
    exact Pattern.WellFormed.rebase_iff hl hnew
  | reference r =>
    have hsame : Leaf.rebase old new (reference r) = reference r ↔
        r.path.rebase old new = r.path := by
      obtain ⟨path, name⟩ := r
      simp [Leaf.rebase]
    rw [hsame]
    exact Reference.WellFormed.rebase_iff hl hnew

end Leaf

/-! ## Expressions -/

variable {ε : Type}

/-- Rebuilding a tree with leaves in the places of its leaves adds no level to it, nor to
what counts below a union. -/
theorem Tree.height_mapLeaves_le {f : Leaf → Expression} {t : Tree} (ht : t.Canonical)
    (hf : ∀ l ∈ t.leaves, (f l).height = 0) :
    (t.mapLeaves f).height ≤ t.height ∧
      ∀ op, (t.mapLeaves f).heightBelow op ≤ t.height - t.shared op := by
  induction t with
  | leaf l =>
    have hl : (f l).height = 0 := hf l (by simp [leaves])
    refine ⟨Nat.le_of_eq hl, fun op => ?_⟩
    exact Nat.le_trans (Expression.heightBelow_le op (f l)) (by rw [hl]; exact Nat.zero_le _)
  | complement operand ih =>
    have hoperand := (ih ht.1 hf).1
    have hle : (mapLeaves f (complement operand)).height ≤ (complement operand).height :=
      Nat.le_trans (Expression.height_complement_le _) (Nat.succ_le_succ hoperand)
    refine ⟨hle, fun op => Nat.le_trans (Expression.heightBelow_le op _) ?_⟩
    simpa [shared, isJoinedBy] using hle
  | binary op left right ihLeft ihRight =>
    obtain ⟨hleft, hbelow⟩ := ihLeft ht.1 fun l hl => hf l (List.mem_append_left _ hl)
    have hright := (ihRight ht.2.1 fun l hl => hf l (List.mem_append_right _ hl)).1
    have hop := hbelow op
    have hle := (Expression.height_combine_le op (left.mapLeaves f) (right.mapLeaves f)).1
    rw [height_binary ht.2.2, mapLeaves]
    refine ⟨by omega, fun other => ?_⟩
    have hother :=
      Expression.heightBelow_combine_le op other (left.mapLeaves f) (right.mapLeaves f)
    have hshared : (binary op left right).shared other =
        if other.isUnion && op == other then 1 else 0 := rfl
    omega

namespace Expression

variable {e moved : Expression} {old new anchor : Path}

/-- Putting leaves in the places of leaves adds no levels. -/
theorem height_mapLeaves_le {f : Leaf → Expression} (he : e.Canonical)
    (hf : ∀ l ∈ e.leaves, (f l).height = 0) : (e.mapLeaves f).height ≤ e.height := by
  cases e with
  | nothing => exact Nat.le_refl 0
  | of t => exact (Tree.height_mapLeaves_le he hf).1

/-- All expressions are found if each one is, and then they might have been known before. -/
theorem mapLeavesM_eq_ok_iff {f : Leaf → Except ε Expression} {g : Leaf → Expression}
    (hg : ∀ l ∈ e.leaves, ∀ found, f l = .ok found → found = g l) :
    e.mapLeavesM f = .ok moved ↔ (∀ l ∈ e.leaves, f l = .ok (g l)) ∧ moved = e.mapLeaves g := by
  cases e with
  | nothing =>
    constructor
    · intro h
      exact ⟨nofun, (Except.ok.inj h).symm⟩
    · rintro ⟨-, rfl⟩
      rfl
  | of t =>
    simp only [leaves, mapLeavesM, mapLeaves] at hg ⊢
    induction t generalizing moved with
    | leaf l =>
      rw [Tree.leaves, List.forall_mem_singleton] at hg ⊢
      rw [Tree.mapLeavesM, Tree.mapLeaves]
      constructor
      · intro h
        obtain rfl := hg moved h
        exact ⟨h, rfl⟩
      · rintro ⟨h, rfl⟩
        exact h
    | complement operand ih =>
      rw [Tree.leaves, Tree.mapLeavesM, Tree.mapLeaves, bind_eq_ok]
      constructor
      · rintro ⟨inner, hinner, h⟩
        obtain ⟨hleaves, rfl⟩ := (ih hg).mp hinner
        exact ⟨hleaves, (Except.ok.inj h).symm⟩
      · rintro ⟨hleaves, rfl⟩
        exact ⟨_, (ih hg).mpr ⟨hleaves, rfl⟩, rfl⟩
    | binary op left right ihLeft ihRight =>
      rw [Tree.leaves, List.forall_mem_append] at hg ⊢
      rw [Tree.mapLeavesM, Tree.mapLeaves, bind_eq_ok]
      constructor
      · rintro ⟨l, hl, h⟩
        obtain ⟨r, hr, h⟩ := bind_eq_ok.mp h
        obtain ⟨hleft, rfl⟩ := (ihLeft hg.1).mp hl
        obtain ⟨hright, rfl⟩ := (ihRight hg.2).mp hr
        exact ⟨⟨hleft, hright⟩, (Except.ok.inj h).symm⟩
      · rintro ⟨⟨hleft, hright⟩, rfl⟩
        exact ⟨_, (ihLeft hg.1).mpr ⟨hleft, rfl⟩,
          bind_eq_ok.mpr ⟨_, (ihRight hg.2).mpr ⟨hright, rfl⟩, rfl⟩⟩

theorem height_anchorAt_le (he : e.Canonical) (h : e.anchorAt anchor = .ok moved) :
    moved.height ≤ e.height := by
  unfold Expression.anchorAt at h
  split at h
  · exact absurd h (by simp)
  let known (l : Leaf) : Expression :=
    match l.anchorAt anchor with
    | .ok found => of (.leaf found)
    | .error _ => of (.leaf l)
  have hknown : ∀ l, (known l).height = 0 := by
    intro l
    simp only [known]
    split <;> rfl
  obtain ⟨-, rfl⟩ : _ ∧ moved = e.mapLeaves known := by
    refine (mapLeavesM_eq_ok_iff fun l _ found hfound => ?_).mp h
    obtain ⟨there, hthere, hfound⟩ := bind_eq_ok.mp hfound
    obtain rfl := Except.ok.inj hfound
    simp only [known, hthere]
  exact height_mapLeaves_le he fun l _ => hknown l

theorem height_rebase_le (he : e.Canonical) (old new : Path) :
    (e.rebase old new).height ≤ e.height :=
  height_mapLeaves_le he fun _ _ => rfl

/-- What has been anchored can be read back exactly if each leaf that is left can. -/
theorem WellFormed.anchorAt_iff (he : e.WellFormed) (hanchor : anchor.WellFormed)
    (h : e.anchorAt anchor = .ok moved) :
    moved.WellFormed ↔ ∀ l ∈ e.leaves, ∀ found ∈ moved.leaves, l.anchorAt anchor = .ok found →
      l.CanAnchor anchor := by
  have hcanonical : moved.Canonical := closed_canonical.anchorAt (fun _ _ _ _ => trivial) h
  have hleaves : ∀ found ∈ moved.leaves, found = .pattern .everything ∨
      ∃ l ∈ e.leaves, l.anchorAt anchor = .ok found := by
    refine Closed.anchorAt (closed_leaves (Or.inl rfl)) (fun l hl there hthere found hfound => ?_) h
    obtain rfl := List.mem_singleton.mp hfound
    exact Or.inr ⟨l, hl, hthere⟩
  rw [wellFormed_iff]
  constructor
  · rintro ⟨-, hwell⟩ l hl found hfound hmoved
    exact ((he.leaf hl).anchorAt_iff hanchor hmoved).mp (hwell found hfound)
  · refine fun hcan => ⟨hcanonical, fun found hfound => ?_⟩
    rcases hleaves found hfound with rfl | ⟨l, hl, hmoved⟩
    · exact Pattern.wellFormed_everything
    · exact ((he.leaf hl).anchorAt_iff hanchor hmoved).mpr (hcan l hl found hfound hmoved)

/-- What has been moved can be read back exactly if each leaf that is left can. -/
theorem WellFormed.rebase_iff (he : e.WellFormed) (hnew : new.WellFormed) :
    (e.rebase old new).WellFormed ↔ ∀ l ∈ e.leaves, l.rebase old new ∈ (e.rebase old new).leaves →
      l.rebase old new = l ∨ l.CanMove old new := by
  have hcanonical : (e.rebase old new).Canonical := closed_canonical.rebase fun _ _ => trivial
  have hleaves : ∀ found ∈ (e.rebase old new).leaves, found = .pattern .everything ∨
      ∃ l ∈ e.leaves, l.rebase old new = found := by
    refine Closed.rebase (closed_leaves (Or.inl rfl)) fun l hl found hfound => ?_
    obtain rfl := List.mem_singleton.mp hfound
    exact Or.inr ⟨l, hl, rfl⟩
  rw [wellFormed_iff]
  constructor
  · rintro ⟨-, hwell⟩ l hl hfound
    exact ((he.leaf hl).rebase_iff hnew).mp (hwell _ hfound)
  · refine fun hcan => ⟨hcanonical, fun found hfound => ?_⟩
    rcases hleaves found hfound with rfl | ⟨l, hl, rfl⟩
    · exact Pattern.wellFormed_everything
    · exact ((he.leaf hl).rebase_iff hnew).mpr (hcan l hl hfound)

/-- An expression that has been read is anchored or moved.  The text of what comes out is read
as what came out exactly if each leaf that is left could be anchored, or stays what it is or
could be moved. -/
theorem parse_text_of_moved {text : String} (h : Expression.parse text = .ok e) :
    (∀ place anchor moved, Path.parse place = .ok anchor → e.anchorAt anchor = .ok moved →
        (Expression.parse moved.text = .ok moved ↔
          ∀ l ∈ e.leaves, ∀ found ∈ moved.leaves, l.anchorAt anchor = .ok found →
            l.CanAnchor anchor)) ∧
      ∀ place old new, Path.parse place = .ok new →
        (Expression.parse (e.rebase old new).text = .ok (e.rebase old new) ↔
          ∀ l ∈ e.leaves, l.rebase old new ∈ (e.rebase old new).leaves →
            l.rebase old new = l ∨ l.CanMove old new) := by
  obtain ⟨he, hheight⟩ := wellFormed_of_parse h
  have hcanonical := (wellFormed_iff.mp he).1
  have hreadable : ∀ {moved : Expression}, moved.height ≤ e.height →
      (Expression.parse moved.text = .ok moved ↔ moved.WellFormed) := fun hle =>
    ⟨fun hread => (wellFormed_of_parse hread).1,
      fun hwell => parse_text hwell (Nat.le_trans hle hheight)⟩
  constructor
  · intro place anchor moved hplace hmoved
    rw [hreadable (height_anchorAt_le hcanonical hmoved)]
    exact he.anchorAt_iff (Path.wellFormed_of_parse hplace) hmoved
  · intro place old new hplace
    rw [hreadable (height_rebase_le hcanonical old new)]
    exact he.rebase_iff (Path.wellFormed_of_parse hplace)

/-- A property pattern and a reference that goes up, seen from `/w/v`, and moved from below
`b` to below `../d`. -/
theorem parse_text_of_moved_up :
    let difference (base path : Path) : Expression :=
      of (.binary .difference
        (.leaf (.pattern ⟨base, [.stretch, .glob "*" none, .glob "c*" none], true⟩))
        (.leaf (.reference ⟨path, "x"⟩)))
    let e := difference ⟨.relative, ["b"], none⟩ ⟨.relative, ["..", "a"], none⟩
    let anchor : Path := ⟨.absolute, ["w", "v"], none⟩
    let anchored := difference ⟨.absolute, ["w", "v", "b"], none⟩ ⟨.absolute, ["w", "a"], none⟩
    let old : Path := ⟨.relative, ["b"], none⟩
    let new : Path := ⟨.relative, ["..", "d"], none⟩
    let moved := difference new ⟨.relative, ["..", "a"], none⟩
    Expression.parse "b//*.c* - %../a:x" = .ok e ∧
      (Path.parse "/w/v" = .ok anchor ∧ e.anchorAt anchor = .ok anchored ∧
        (∀ l ∈ e.leaves, l.CanAnchor anchor) ∧
        Expression.parse anchored.text = .ok anchored) ∧
      Path.parse "../d" = .ok new ∧ e.rebase old new = moved ∧
        (∀ l ∈ e.leaves, l.CanMove old new) ∧ Expression.parse moved.text = .ok moved := by
  intro difference e anchor anchored old new moved
  have hparse : Expression.parse "b//*.c* - %../a:x" = .ok e := by decide +kernel
  have hanchor : Path.parse "/w/v" = .ok anchor := by decide +kernel
  have hanchored : e.anchorAt anchor = .ok anchored := by decide +kernel
  have hcanAnchor : ∀ l ∈ e.leaves, l.CanAnchor anchor := by decide
  have hnew : Path.parse "../d" = .ok new := by decide +kernel
  have hmoved : e.rebase old new = moved := by decide +kernel
  have hcanMove : ∀ l ∈ e.leaves, l.CanMove old new := by decide
  refine ⟨hparse, ⟨hanchor, hanchored, hcanAnchor, ?_⟩, hnew, hmoved, hcanMove, ?_⟩
  · exact ((parse_text_of_moved hparse).1 "/w/v" anchor anchored hanchor hanchored).mpr
      fun l hl _ _ _ => hcanAnchor l hl
  · exact hmoved ▸ ((parse_text_of_moved hparse).2 "../d" old new hnew).mpr
      fun l hl _ => Or.inr (hcanMove l hl)

/-- What moving can spoil: a reference is moved to a property, `..` is put below a name, and
the root is given a property. -/
theorem parse_text_fails_of_moved :
    (∃ e old new, Expression.parse "%/World/rig:geom" = .ok e ∧
        Path.parse "/World/rig" = .ok old ∧ Path.parse "/World/rig.main" = .ok new ∧
        (e.rebase old new).text = "%/World/rig.main:geom" ∧
        (Expression.parse (e.rebase old new).text).isOk = false) ∧
      (∃ e old new, Expression.parse ".." = .ok e ∧
        Path.parse "." = .ok old ∧ Path.parse "/a" = .ok new ∧
        (e.rebase old new).text = "/a/.." ∧
        (Expression.parse (e.rebase old new).text).isOk = false) ∧
      ∃ e anchor moved, Expression.parse ".*" = .ok e ∧ Path.parse "/" = .ok anchor ∧
        e.anchorAt anchor = .ok moved ∧ moved.text = ".*" ∧
        Expression.parse moved.text ≠ .ok moved := by
  refine ⟨⟨ofReference ⟨⟨.absolute, ["World", "rig"], none⟩, "geom"⟩,
      ⟨.absolute, ["World", "rig"], none⟩, ⟨.absolute, ["World", "rig"], some "main"⟩, ?_⟩,
    ⟨of (.leaf (.pattern ⟨⟨.relative, [".."], none⟩, [], false⟩)), .here,
      ⟨.absolute, ["a"], none⟩, ?_⟩,
    of (.leaf (.pattern ⟨.here, [.glob "*" none], true⟩)), .root,
    of (.leaf (.pattern ⟨.root, [.glob "*" none], true⟩)), ?_⟩
  · decide +kernel
  · decide +kernel
  · decide +kernel

end Expression
end PathSets
