import Mathlib.Data.Set.Function
import PathSets.Proofs.PathRoundTrip
import PathSets.Proofs.RelocatedMatching

/-!
# Moving whole subtrees

Two prims have subtrees of one shape: what goes on from the one goes on from the other
(`Path.below`), and moving puts the one prim in the place of the other (`Path.rebase_below`).
So moving there and moving back undo each other (`Path.rebase_rebase`), whether the prims stand
apart or one of them is within the other, and all that can be said of a path within its subtree is
kept.
-/

namespace PathSets.Path

variable {p q old new : Path} {rest : List String} {property : Option String}

theorem elements_below (hold : old.isProperty = false) :
    (old.below rest property).elements =
      old.elements ++ (rest.map .prim ++ property.toList.map .property) := by
  have hnone : old.property = none := by simpa [isProperty] using hold
  simp [elements, below, hnone]

/-- What is not within `old` stays where it is. -/
theorem rebase_of_not_isWithin (h : p.isWithin old = false) : p.rebase old new = p := by
  rw [rebase, h]
  simp

section Moving

variable (hold : old.IsPrimPath) (hnew : new.IsPrimPath)
include hold hnew

/-- Moving back gives the path again. -/
theorem rebase_rebase (hp : p.isWithin old = true) : (p.rebase old new).rebase new old = p := by
  obtain ⟨rest, property, rfl⟩ := exists_below hold.isProperty hp
  rw [rebase_below hold hnew, rebase_below hnew hold]

theorem exists_elements_rebase (hp : p.isWithin old = true) :
    ∃ more, p.elements = old.elements ++ more ∧
      (p.rebase old new).elements = new.elements ++ more := by
  obtain ⟨rest, property, rfl⟩ := exists_below hold.isProperty hp
  rw [rebase_below hold hnew]
  exact ⟨_, elements_below hold.isProperty, elements_below hnew.isProperty⟩

/-- Nothing goes up behind a prim of an absolute path, so everything within it can be moved. -/
theorem canMove_of_isPrimPath (hp : p.WellFormed) : p.CanMove old new := by
  intro hwithin _
  have habsolute : p.anchor = .absolute := eq_of_beq (hold.isAbsolute_of_isWithin hwithin)
  have hprims := hp.prims
  rw [habsolute] at hprims
  refine ⟨fun hup => ?_, fun _ _ hlast => ?_⟩
  · have hmem : upElement ∈ p.prims := List.mem_of_mem_drop (List.mem_of_mem_head? hup)
    exact absurd rfl (ne_upElement_of_isIdentifier (hprims.isIdentifier _ hmem))
  · have hprim := hnew.prim
    simp [isPrim, hlast] at hprim

theorem reachable_rebase_iff (hold' : old.Reachable) (hnew' : new.Reachable)
    (hp : p.isWithin old = true) : (p.rebase old new).Reachable ↔ p.Reachable := by
  rw [reachable_iff_wellFormed] at hold' hnew'
  rw [reachable_iff_wellFormed, reachable_iff_wellFormed]
  constructor
  · intro hmoved
    have hback := hmoved.rebase hold' (canMove_of_isPrimPath hnew hold hmoved)
    rwa [rebase_rebase hold hnew hp] at hback
  · intro hwell
    exact hwell.rebase hnew' (canMove_of_isPrimPath hold hnew hwell)

theorem bijOn_rebase :
    Set.BijOn (rebase · old new) {p | p.isWithin old = true} {q | q.isWithin new = true} := by
  refine ⟨fun p hp => rebase_isWithin hold hnew hp, fun p hp q hq h => ?_, fun q hq => ?_⟩
  · exact (rebase_inj hold hnew hp hq).mp h
  · exact ⟨q.rebase new old, rebase_isWithin hnew hold hq, rebase_rebase hnew hold hq⟩

end Moving

/-- The subtrees of two prims are isomorphic.  Moving is a bijection between them, and moving back
is its inverse; it keeps what is within what, what is a prim and what is a property, the elements
below the prim, and what can be reached.  Nothing else is moved. -/
theorem rebase_isomorphism (hold : old.IsPrimPath) (hnew : new.IsPrimPath) :
    Set.BijOn (rebase · old new) {p | p.isWithin old = true} {q | q.isWithin new = true} ∧
      Set.InvOn (rebase · new old) (rebase · old new)
        {p | p.isWithin old = true} {q | q.isWithin new = true} ∧
      (∀ p q : Path, p.isWithin old = true → q.isWithin old = true →
        ((p.rebase old new).isWithin (q.rebase old new) = true ↔ p.isWithin q = true)) ∧
      (∀ p : Path, p.isWithin old = true →
        (p.rebase old new).isPrim = p.isPrim ∧ (p.rebase old new).isProperty = p.isProperty ∧
          ∃ more, p.elements = old.elements ++ more ∧
            (p.rebase old new).elements = new.elements ++ more) ∧
      (∀ p : Path, p.isWithin old = false → p.rebase old new = p) ∧
      (old.Reachable → new.Reachable → ∀ p : Path, p.isWithin old = true →
        ((p.rebase old new).Reachable ↔ p.Reachable)) := by
  refine ⟨bijOn_rebase hold hnew, ⟨fun p hp => ?_, fun q hq => ?_⟩, fun p q hp hq => ?_,
    fun p hp => ?_, fun p hp => ?_, fun hold' hnew' p hp => ?_⟩
  · exact rebase_rebase hold hnew hp
  · exact rebase_rebase hnew hold hq
  · rw [isWithin_rebase hold hnew hp hq]
  · exact ⟨isPrim_rebase hold hnew hp, isProperty_rebase hold hnew hp,
      exists_elements_rebase hold hnew hp⟩
  · exact rebase_of_not_isWithin hp
  · exact reachable_rebase_iff hold hnew hold' hnew' hp

/-- Moving `/rig` below itself: what is below the new prim is moved further down, and comes back
from there. -/
theorem rebase_isomorphism_of_nested :
    let old : Path := ⟨.absolute, ["rig"], none⟩
    let new : Path := ⟨.absolute, ["rig", "rig"], none⟩
    let p : Path := ⟨.absolute, ["rig", "rig", "arm"], some "size"⟩
    let moved : Path := ⟨.absolute, ["rig", "rig", "rig", "arm"], some "size"⟩
    let other : Path := ⟨.absolute, ["rig_2", "arm"], none⟩
    (old.IsPrimPath ∧ new.IsPrimPath) ∧
      (p.isWithin old = true ∧ p.rebase old new = moved ∧ moved.isWithin new = true ∧
        moved.rebase new old = p) ∧
      ((p.rebase old new).isWithin (new.rebase old new) = true ↔ p.isWithin new = true) ∧
      (other.isWithin old = false ∧ other.rebase old new = other) ∧
      (old.Reachable ∧ new.Reachable ∧ (moved.Reachable ↔ p.Reachable)) := by
  intro old new p moved other
  have hold : old.IsPrimPath := ⟨by decide, by decide⟩
  have hnew : new.IsPrimPath := ⟨by decide, by decide⟩
  have hp : p.isWithin old = true := by decide
  have hwithin : new.isWithin old = true := by decide
  have hother : other.isWithin old = false := by decide
  have hmoved : p.rebase old new = moved := by decide
  have hold' : old.Reachable := .parse (show parse "/rig" = _ by decide +kernel)
  have hnew' : new.Reachable := .parse (show parse "/rig/rig" = _ by decide +kernel)
  obtain ⟨hbij, hinv, hsame, -, hstays, hreachable⟩ := rebase_isomorphism hold hnew
  have hmaps : (p.rebase old new).isWithin new = true := hbij.mapsTo hp
  have hback : (p.rebase old new).rebase new old = p := hinv.1 hp
  have hreach := hreachable hold' hnew' p hp
  rw [hmoved] at hmaps hback hreach
  exact ⟨⟨hold, hnew⟩, ⟨hp, hmoved, hmaps, hback⟩, hsame p new hp hwithin,
    ⟨hother, hstays other hother⟩, hold', hnew', hreach⟩

end PathSets.Path
