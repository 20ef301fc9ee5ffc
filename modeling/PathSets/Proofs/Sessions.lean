import PathSets.Match.Evaluator
import PathSets.Proofs.Lineage

/-!
# Sessions of searches

A caller may begin a search at the root at any time, and may go on from any cursor
that it has been given before, to a path that need not have anything to do with
that cursor.  This module shows that no history of such requests makes a
difference: every answer is the cursor of a search from the root.

`Evaluator.resume_eq_start` is the lemma about one request and rests on
`Cursor.IsFresh`, which all cursors of a session have.  `session?_eq_append` is the
induction over the requests.
-/

namespace PathSets

/-- What a caller may ask of an evaluator.  `origin` is the place of an earlier
answer, the first one having place 0. -/
inductive Request where
  | start (path : Path)
  | resume (origin : Nat) (path : Path)
  deriving DecidableEq, Repr

namespace Request

/-- The path that is asked about. -/
def path : Request → Path
  | start p => p
  | resume _ p => p

/-- Whether each request goes on only from a cursor that is there by then, if there
are `count` of them at first. -/
def AllAnswerable : (count : Nat) → List Request → Prop
  | _, [] => True
  | count, start _ :: requests => AllAnswerable (count + 1) requests
  | count, resume origin _ :: requests => origin < count ∧ AllAnswerable (count + 1) requests

end Request

namespace Evaluator

/-- The cursor for one request, after the cursors in `log` have been returned. -/
def answer? (ev : Evaluator) (log : List Cursor) : Request → Option Cursor
  | .start p => some (ev.start p)
  | .resume origin p => log[origin]?.map fun c => ev.resume c p

/-- All cursors returned, oldest first, after some more requests. -/
def session? (ev : Evaluator) (log : List Cursor) : List Request → Option (List Cursor)
  | [] => some log
  | request :: requests => do
    session? ev (log ++ [← ev.answer? log request]) requests

variable {ev : Evaluator} {c : Cursor} {p q : Path} {log log' : List Cursor}
  {requests : List Request}

/-- The cursor for an absolute path stands at its last element, or at the root. -/
theorem path_start (ev : Evaluator) (p : Path) : (ev.start p).path = p := by
  unfold start
  split
  · next habs =>
    have hanchor : p.anchor = .absolute := eq_of_beq habs
    by_cases hcount : p.elementCount = 0
    · have hnil : p.lineage = [] := by rw [← List.length_eq_zero_iff, Path.length_lineage, hcount]
      rw [hnil]
      simp only [Path.elementCount, Nat.add_eq_zero_iff, List.length_eq_zero_iff,
        Option.toList_eq_nil_iff] at hcount
      obtain ⟨anchor, prims, property⟩ := p
      obtain rfl : anchor = .absolute := hanchor
      obtain rfl : prims = [] := hcount.1
      obtain rfl : property = none := hcount.2
      rfl
    · rw [Path.lineage_eq_concat hcount, List.foldl_append]
      simp only [List.foldl_cons, List.foldl_nil, Cursor.advance]
      split
      · rfl
      · split <;> rfl
  · rfl

/-- From the parent of an absolute path one step is left. -/
theorem start_of_parent (ev : Evaluator) (habs : p.isAbsolute = true)
    (hparent : p.parent? = some q) : ev.start p = (ev.start q).advance p := by
  have hq : q.isAbsolute = true := by
    rw [Path.isAbsolute, Path.anchor_of_parent hparent]
    exact habs
  rw [start, start, if_pos habs, if_pos hq, Path.lineage_of_parent hparent, List.foldl_append]
  rfl

end Evaluator

/-- A cursor that a search from the root gives for its path. -/
def Cursor.IsFresh (ev : Evaluator) (c : Cursor) : Prop :=
  ev.start c.path = c

namespace Evaluator

variable {ev : Evaluator} {c : Cursor} {p q : Path} {log log' : List Cursor}
  {requests : List Request}

theorem isFresh_start (ev : Evaluator) (p : Path) : (ev.start p).IsFresh ev := by
  rw [Cursor.IsFresh, path_start]

/-- Going on from a fresh cursor is the same as starting anew. -/
theorem resume_eq_start (h : c.IsFresh ev) (p : Path) : ev.resume c p = ev.start p := by
  unfold resume
  split
  · next hchild =>
    obtain ⟨habs, hparent⟩ := Bool.and_eq_true_iff.mp hchild
    rw [start_of_parent ev habs (eq_of_beq hparent), h]
  · rfl

/-- What a request adds to a log of fresh cursors is fresh, and so the whole session
returns one fresh cursor for each request. -/
theorem session?_eq_append (hlog : ∀ c ∈ log, c.IsFresh ev)
    (h : Request.AllAnswerable log.length requests) :
    ev.session? log requests = some (log ++ requests.map fun r => ev.start r.path) := by
  induction requests generalizing log with
  | nil => simp [session?]
  | cons request requests ih =>
    have hnext : ev.answer? log request = some (ev.start request.path) ∧
        Request.AllAnswerable (log.length + 1) requests := by
      cases request with
      | start p => exact ⟨rfl, h⟩
      | resume origin p =>
        obtain ⟨horigin, hrest⟩ := h
        refine ⟨?_, hrest⟩
        have hfresh : log[origin].IsFresh ev := hlog _ (List.getElem_mem horigin)
        rw [answer?, List.getElem?_eq_getElem horigin, Option.map_some, resume_eq_start hfresh]
        rfl
    have hlog' : ∀ c ∈ log ++ [ev.start request.path], c.IsFresh ev := by
      intro c hc
      rcases List.mem_append.mp hc with hc | hc
      · exact hlog c hc
      · rw [List.mem_singleton.mp hc]
        exact isFresh_start ev request.path
    rw [session?, hnext.1, Option.bind_eq_bind, Option.bind_some,
      ih hlog' (by simpa using hnext.2)]
    simp

/-- The log only grows: what stands at a place stays there. -/
theorem getElem?_of_session? (h : ev.session? log requests = some log') {i : Nat}
    (hi : log[i]? = some c) : log'[i]? = some c := by
  induction requests generalizing log with
  | nil =>
    rw [← Option.some.inj h]
    exact hi
  | cons request requests ih =>
    obtain ⟨answer, _, hrest⟩ := Option.bind_eq_some_iff.mp h
    refine ih hrest ?_
    obtain ⟨hlt, rfl⟩ := List.getElem?_eq_some_iff.mp hi
    rw [List.getElem?_append_left hlt, List.getElem?_eq_getElem hlt]

/-- In a session of any requests, each answer is the whole cursor that a search from
the root gives for the path that was asked about.  Further requests leave the earlier
cursors as they are, and a search that goes on from one of them still answers like a
search from the root. -/
theorem session_answers_afresh (ev : Evaluator) {requests : List Request}
    (h : Request.AllAnswerable 0 requests) :
    ∃ log, ev.session? [] requests = some log ∧
      log = requests.map (fun r => ev.start r.path) ∧
      ∀ (more : List Request) (log' : List Cursor), ev.session? log more = some log' →
        ∀ (i : Nat) (c : Cursor), log[i]? = some c →
          log'[i]? = some c ∧ ∀ q : Path, ev.resume c q = ev.start q := by
  refine ⟨_, session?_eq_append (by simp) h, by simp, ?_⟩
  intro more log' hmore i c hi
  refine ⟨getElem?_of_session? hmore hi, fun q => ?_⟩
  have hmem : c ∈ requests.map fun r => ev.start r.path := by
    simpa using List.mem_of_getElem? hi
  obtain ⟨request, _, rfl⟩ := List.mem_map.mp hmem
  exact resume_eq_start (isFresh_start ev request.path) q

/-- The pattern `/a/b` at `/a`, at the child that it matches, at a property of that child
and, from the older cursor, at a sibling, with a relative path at the end. -/
theorem session_answers_afresh_branching :
    let ev : Evaluator := ⟨"/a/b", .leaf ⟨⟨.absolute, ["a", "b"], none⟩, [], false⟩⟩
    let requests : List Request :=
      [.start ⟨.absolute, ["a"], none⟩, .resume 0 ⟨.absolute, ["a", "b"], none⟩,
        .resume 1 ⟨.absolute, ["a", "b"], some "p"⟩, .resume 0 ⟨.absolute, ["a", "c"], none⟩,
        .resume 2 ⟨.relative, ["c"], none⟩]
    Request.AllAnswerable 0 requests ∧
      ∃ log, ev.session? [] requests = some log ∧
        log = requests.map (fun r => ev.start r.path) ∧
        log.map (·.verdict.matched) = [false, true, false, false, false] := by
  intro ev requests
  have h : Request.AllAnswerable 0 requests := by simp [requests, Request.AllAnswerable]
  obtain ⟨log, hlog, heq, _⟩ := session_answers_afresh ev h
  refine ⟨h, log, hlog, heq, ?_⟩
  rw [heq]
  decide

end Evaluator

end PathSets
