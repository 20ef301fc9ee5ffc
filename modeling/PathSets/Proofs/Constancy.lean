import PathSets.Match.Evaluator
import PathSets.Proofs.Lineage

/-!
# Constant verdicts

A constant verdict is the verdict on everything below the path as well, and a
search drops the states of its automata there.  This module shows that nothing is
lost.

There are four groups.

* `Verdict.Settles` relates a verdict to a later one.  Every operator keeps it,
  the ones with early answers included (`Operator.settles`).
* The states of an automaton have one position more than it has steps, and a
  trailing stretch that is reached stays reached.  `Automaton.settles_advance` is
  the step lemma and `Automaton.settles_advanceAll` the lemma for a whole run.
* `Evaluator.plainVerdict` is the reference: it takes every automaton along every
  element of the path and looks at the verdicts only at the end.
* `Cursor.Tracks` is the invariant of a search that stops early.  It relates the
  cursor to the plain run, and `Evaluator.tracks_start` proves it of every search.
-/

namespace PathSets

/-! ## Verdicts that stay -/

namespace Verdict

variable {v w v' w' : Verdict}

/-- If `v` is constant, a later verdict `w` is the same. -/
def Settles (v w : Verdict) : Prop :=
  v.constant = true → w = v

theorem Settles.complement (h : v.Settles w) : v.complement.Settles w.complement := by
  intro hconst
  rw [h hconst]

/-- A union is decided by a constant true on either side, or by both sides being
constant. -/
theorem Settles.or (hv : v.Settles v') (hw : w.Settles w') : (v.or w).Settles (v'.or w') := by
  obtain ⟨vm, vc⟩ := v
  obtain ⟨wm, wc⟩ := w
  intro hconst
  cases vc with
  | true =>
    obtain rfl := hv rfl
    cases wc with
    | true => rw [hw rfl]
    | false => cases vm <;> simp_all [Verdict.or]
  | false =>
    cases wc with
    | true =>
      obtain rfl := hw rfl
      obtain ⟨vm', vc'⟩ := v'
      cases wm <;> cases vm' <;> cases vc' <;> simp_all [Verdict.or]
    | false => exact absurd hconst (by simp [Verdict.or])

theorem and_eq_complement_or (v w : Verdict) :
    v.and w = (v.complement.or w.complement).complement := by
  obtain ⟨vm, vc⟩ := v
  obtain ⟨wm, wc⟩ := w
  cases vm <;> cases vc <;> cases wm <;> cases wc <;> rfl

theorem Settles.and (hv : v.Settles v') (hw : w.Settles w') :
    (v.and w).Settles (v'.and w') := by
  rw [and_eq_complement_or, and_eq_complement_or]
  exact (hv.complement.or hw.complement).complement

theorem Settles.trans {u : Verdict} (huv : u.Settles v) (hvw : v.Settles w) :
    u.Settles w := by
  intro hconst
  have hv : v = u := huv hconst
  rw [hvw (hv ▸ hconst), hv]

end Verdict

/-- Every operator answers for good where its operands let it. -/
theorem Operator.settles (op : Operator) {v w v' w' : Verdict} (hv : v.Settles v')
    (hw : w.Settles w') : (op.verdict v w).Settles (op.verdict v' w') := by
  cases op with
  | intersection => exact hv.and hw
  | difference => exact hv.and hw.complement
  | juxtaposition => exact hv.or hw
  | union => exact hv.or hw

namespace Formula

variable {α β γ : Type}

@[simp] theorem map_map (f : α → β) (g : β → γ) (φ : Formula α) :
    (φ.map f).map g = φ.map fun a => g (f a) := by
  induction φ with
  | nothing => rfl
  | leaf => rfl
  | complement _ ih => simp only [map, ih]
  | binary _ _ _ ihl ihr => simp only [map, ihl, ihr]

@[simp] theorem verdict_map (f : α → β) (g : β → Verdict) (φ : Formula α) :
    (φ.map f).verdict g = φ.verdict fun a => g (f a) := by
  induction φ with
  | nothing => rfl
  | leaf => rfl
  | complement _ ih => simp only [map, verdict, ih]
  | binary _ _ _ ihl ihr => simp only [map, verdict, ihl, ihr]

/-- A formula whose leaves answer for good where they are constant does so too. -/
theorem settles {f g : α → Verdict} (h : ∀ a, (f a).Settles (g a)) (φ : Formula α) :
    (φ.verdict f).Settles (φ.verdict g) := by
  induction φ with
  | nothing => exact fun _ => rfl
  | leaf a => exact h a
  | complement _ ih => exact ih.complement
  | binary op _ _ ihl ihr => exact op.settles ihl ihr

end Formula

/-! ## States of an automaton -/

namespace Automaton

variable {a : Automaton} {p : Path} {steps : List Step} {positions : List Bool}
  {trailing reached : Bool} {s : State}

/-- A live state has a position before each step and one after the last. -/
def Fits (a : Automaton) : State → Prop
  | .live positions => positions.length = a.steps.length + 1
  | _ => True

theorem length_initial (steps : List Step) : (initial steps).length = steps.length + 1 := by
  simp [initial]

theorem length_close : (close p reached steps positions).length = positions.length := by
  fun_induction close p reached steps positions with
  | case1 reached s steps here positions _ ih => simpa using ih
  | case2 => rfl
  | case3 => rfl

theorem length_take (h : positions.length = steps.length + 1) :
    (take trailing p reached steps positions).length = steps.length + 1 := by
  induction steps generalizing positions reached with
  | nil =>
    obtain ⟨here, rfl⟩ := List.length_eq_one_iff.mp h
    rfl
  | cons s steps ih =>
    obtain ⟨here, positions, rfl⟩ := List.exists_cons_of_length_eq_add_one h
    simp only [take, List.length_cons, Nat.add_right_cancel_iff]
    exact ih (by simpa using h)

theorem fits_start (a : Automaton) : a.Fits a.start := by
  unfold start
  split
  · exact length_initial a.steps
  · split <;> trivial

theorem fits_advance (h : a.Fits s) (p : Path) : a.Fits (a.advance p s) := by
  cases s with
  | dead => trivial
  | pending =>
    simp only [advance]
    split
    · simp only [Fits, length_close, length_initial]
    · split <;> trivial
  | live positions =>
    simp only [advance]
    split
    · simp only [Fits, length_close]
      exact length_take h
    · trivial

/-- Free steps only add positions, so the last position stays reached. -/
theorem getLastD_close (h : positions.getLastD false = true) :
    (close p reached steps positions).getLastD false = true := by
  induction positions generalizing steps reached with
  | nil => simp at h
  | cons here positions ih =>
    cases positions with
    | nil => cases steps <;> simp_all [close]
    | cons next positions =>
      cases steps with
      | nil => simpa [close] using h
      | cons s steps =>
        have hlast : (close p ((here || reached) && s.isFree p) steps
            (next :: positions)).getLastD false = true := ih (by simpa using h)
        cases steps <;> simpa [close] using hlast

/-- A trailing stretch keeps the last position reached. -/
theorem getLastD_take (hlen : positions.length = steps.length + 1)
    (h : positions.getLastD false = true) :
    (take true p reached steps positions).getLastD false = true := by
  induction steps generalizing positions reached with
  | nil =>
    obtain ⟨here, rfl⟩ := List.length_eq_one_iff.mp hlen
    simpa [take] using Or.inr h
  | cons s steps ih =>
    obtain ⟨here, positions, rfl⟩ := List.exists_cons_of_length_eq_add_one hlen
    obtain ⟨next, positions, rfl⟩ :=
      List.exists_cons_of_length_eq_add_one (by simpa using hlen)
    have hlast : (take true p (here && s.accepts p) steps (next :: positions)).getLastD
        false = true := ih (by simpa using hlen) (by simpa using h)
    cases steps <;> simpa [take] using hlast

theorem verdict_live (a : Automaton) (positions : List Bool) :
    a.verdict (.live positions) =
      ⟨positions.getLastD false, positions.getLastD false && a.trailing⟩ := by
  simp only [verdict]
  cases positions.getLastD false <;> cases a.trailing <;> rfl

theorem any_of_getLastD (h : positions.getLastD false = true) : positions.any id = true := by
  rw [List.getLastD_eq_getLast?] at h
  cases hlast : positions.getLast? with
  | none => simp [hlast] at h
  | some b =>
    obtain rfl : b = true := by simpa [hlast] using h
    exact List.any_eq_true.mpr ⟨true, List.mem_of_getLast? hlast, rfl⟩

/-- One more element does not change a constant verdict. -/
theorem settles_advance (h : a.Fits s) (p : Path) :
    (a.verdict s).Settles (a.verdict (a.advance p s)) := by
  intro hconst
  cases s with
  | dead => rfl
  | pending => exact absurd hconst (by simp [verdict, Verdict.varying])
  | live positions =>
    -- Only a trailing stretch that is reached makes a live state constant.
    rw [verdict_live, Bool.and_eq_true] at hconst
    obtain ⟨hlast, htrailing⟩ := hconst
    have hnext : (close p false a.steps (take a.trailing p false a.steps positions)).getLastD
        false = true := by
      rw [htrailing]
      exact getLastD_close (getLastD_take h hlast)
    simp only [advance]
    rw [if_pos (any_of_getLastD hnext), verdict_live, verdict_live, hnext, hlast]

/-- The state after some more elements. -/
def advanceAll (a : Automaton) (elements : List Path) (s : State) : State :=
  elements.foldl (fun s p => a.advance p s) s

theorem fits_advanceAll (h : a.Fits s) (elements : List Path) :
    a.Fits (a.advanceAll elements s) := by
  induction elements generalizing s with
  | nil => exact h
  | cons p elements ih => exact ih (fits_advance h p)

/-- Any number of elements does not change a constant verdict. -/
theorem settles_advanceAll (h : a.Fits s) (elements : List Path) :
    (a.verdict s).Settles (a.verdict (a.advanceAll elements s)) := by
  induction elements generalizing s with
  | nil => exact fun _ => rfl
  | cons p elements ih => exact (settles_advance h p).trans (ih (fits_advance h p))

end Automaton

/-! ## Matching without stopping early -/

namespace Evaluator

/-- The verdict after some elements, found by taking every automaton along all of
them. -/
def plainVerdictAfter (ev : Evaluator) (elements : List Path) : Verdict :=
  ev.formula.verdict fun a => a.verdict (a.advanceAll elements a.start)

/-- The verdict on a path, found by taking every automaton along all its elements. -/
def plainVerdict (ev : Evaluator) (p : Path) : Verdict :=
  ev.plainVerdictAfter p.lineage

variable {ev : Evaluator} {p : Path} {elements : List Path}

/-- Any number of elements does not change a constant verdict. -/
theorem settles_plainVerdictAfter (ev : Evaluator) (elements more : List Path) :
    (ev.plainVerdictAfter elements).Settles (ev.plainVerdictAfter (elements ++ more)) := by
  refine Formula.settles (fun a => ?_) ev.formula
  simp only [Automaton.advanceAll, List.foldl_append]
  exact Automaton.settles_advanceAll (Automaton.fits_advanceAll (Automaton.fits_start a) _) more

end Evaluator

/-! ## Matching that stops early -/

namespace Cursor

variable {ev : Evaluator} {c : Cursor} {p : Path} {elements : List Path}

/-- A cursor after some elements has the verdict of the plain run.  Its runs are
those of the plain run, or the verdict is constant and they were dropped. -/
structure Tracks (ev : Evaluator) (elements : List Path) (c : Cursor) : Prop where
  verdict : c.verdict = ev.plainVerdictAfter elements
  runs : c.runs = some (ev.formula.map fun a => ⟨a, a.advanceAll elements a.start⟩) ∨
    c.isConstant = true

theorem tracks_rootCursor (ev : Evaluator) : Tracks ev [] ev.rootCursor where
  verdict := by
    simp only [Evaluator.rootCursor, ofRuns, Formula.verdict_map]
    rfl
  runs := Or.inl rfl

/-- One more element, with the short cut or without, leads to the plain run. -/
theorem Tracks.advance (h : Tracks ev elements c) (p : Path) :
    Tracks ev (elements ++ [p]) (c.advance p) := by
  unfold Cursor.advance
  split
  · next hconst =>
    -- The verdict is constant, so the plain run does not change it either.
    refine ⟨?_, Or.inr hconst⟩
    have hsettles := ev.settles_plainVerdictAfter elements [p]
    rw [← h.verdict] at hsettles
    exact (hsettles hconst).symm
  · next hvarying =>
    rw [h.runs.resolve_right hvarying]
    refine ⟨?_, Or.inl ?_⟩
    · simp [ofRuns, Evaluator.plainVerdictAfter, Automaton.advanceAll, Run.advance, Run.verdict]
    · simp [ofRuns, Automaton.advanceAll, Run.advance]

theorem Tracks.foldl (h : Tracks ev elements c) (more : List Path) :
    Tracks ev (elements ++ more) (more.foldl Cursor.advance c) := by
  induction more generalizing elements c with
  | nil => simpa using h
  | cons p more ih => simpa using ih (h.advance p)

end Cursor

namespace Evaluator

variable {ev : Evaluator} {p : Path}

/-- The cursor for an absolute path tracks the plain run along its elements. -/
theorem tracks_start (ev : Evaluator) (hp : p.isAbsolute = true) :
    Cursor.Tracks ev p.lineage (ev.start p) := by
  rw [start, if_pos hp]
  simpa using (Cursor.tracks_rootCursor ev).foldl p.lineage

/-- Stopping early changes no verdict. -/
theorem matchPath_eq_plain (ev : Evaluator) (hp : p.isAbsolute = true) :
    ev.matchPath p = ev.plainVerdict p :=
  (tracks_start ev hp).verdict

/-- A search that stops at constant verdicts answers as the plain run does, for the
matched and for the constant flag, and where it answers for good the plain run gives
the same answer on everything below the path. -/
theorem matchPath_eq_plainVerdict (ev : Evaluator) {p : Path} (hp : p.isAbsolute = true) :
    ev.matchPath p = ev.plainVerdict p ∧
      ((ev.matchPath p).constant = true →
        ∀ d : Path, d.isWithin p = true → ev.plainVerdict d = ev.matchPath p) := by
  refine ⟨matchPath_eq_plain ev hp, fun hconst d hd => ?_⟩
  rw [matchPath_eq_plain ev hp] at hconst ⊢
  have hsettles := ev.settles_plainVerdictAfter p.lineage (d.lineage.drop p.elementCount)
  rw [← Path.lineage_of_isWithin hd] at hsettles
  exact hsettles hconst

/-- The pattern `/a//` at `/a`, where the search stops, and at a property below. -/
theorem matchPath_eq_plainVerdict_below_base :
    let ev : Evaluator := ⟨"/a//", .leaf ⟨⟨.absolute, ["a"], none⟩, [], true⟩⟩
    let p : Path := ⟨.absolute, ["a"], none⟩
    let d : Path := ⟨.absolute, ["a", "b"], some "c"⟩
    (p.isAbsolute = true ∧ (ev.matchPath p).constant = true ∧ d.isWithin p = true) ∧
      ev.matchPath p = ev.plainVerdict p ∧ ev.plainVerdict d = ev.matchPath p := by
  intro ev p d
  have hp : p.isAbsolute = true := by decide
  have hconst : (ev.matchPath p).constant = true := by decide
  have hd : d.isWithin p = true := by decide
  have h := matchPath_eq_plainVerdict ev hp
  exact ⟨⟨hp, hconst, hd⟩, h.1, h.2 hconst d hd⟩

end Evaluator

end PathSets
