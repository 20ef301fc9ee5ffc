import PathSets.Predicate.Reader
import PathSets.Proofs.Outcome

/-!
# Trails of parentheses

A `Trail` is the walk that keeps account of the parentheses it passes.  A reader that is run as
a trail comes to what it comes to anyway, and shows how many parentheses it has open at any
moment: what it has passed by then is the front of its trail.

`Opens` counts them step by step and stays within `Enclosure.limit`.  A reader goes from one
`Position` to another, in the text and in what is open, and passes the parentheses in between
(`Leads`); if it fails, it has got at least as far as the place of its error.  `Trail.Follows`
says so of a reader, and the rules that come with it follow a reader through its steps.
-/

namespace PathSets

/-! ## Open parentheses -/

/-- How many parentheses of each kind are open. -/
abbrev Opened := Enclosure → Nat

/-- One more of a kind. -/
def Opened.enter (opened : Opened) (around : Enclosure) : Opened :=
  fun other => if other = around then opened other + 1 else opened other

@[simp] theorem Opened.enter_self (opened : Opened) (around : Enclosure) :
    opened.enter around around = opened around + 1 :=
  if_pos rfl

theorem Opened.enter_of_ne {opened : Opened} {around other : Enclosure} (h : other ≠ around) :
    opened.enter around other = opened other :=
  if_neg h

/-- How many parentheses of each kind may be open: arguments do not nest. -/
def Enclosure.limit : Opened
  | group => maxDepth
  | arguments => 1

/-- Whether parentheses lead from so many open ones to so many, and are opened within the limit
only. -/
inductive Opens : Opened → List Paren → Opened → Prop
  | done (opened : Opened) : Opens opened [] opened
  | opening {around : Enclosure} {opened after : Opened} {passed : List Paren}
      (hlimit : opened around < around.limit) (h : Opens (opened.enter around) passed after) :
      Opens opened (.opening around :: passed) after
  | closing {around : Enclosure} {opened after : Opened} {passed : List Paren}
      (h : Opens opened passed after) :
      Opens (opened.enter around) (.closing around :: passed) after

/-- How many parentheses of a kind are open when these have been passed, and none before. -/
def openCount (past : List Paren) (around : Enclosure) : Nat :=
  past.count (.opening around) - past.count (.closing around)

namespace Opens

variable {before middle after : Opened} {passed past more : List Paren}

theorem trans (h : Opens before passed middle) (hmore : Opens middle more after) :
    Opens before (passed ++ more) after := by
  induction h with
  | done => exact hmore
  | opening hlimit _ ih => exact .opening hlimit (ih hmore)
  | closing _ ih => exact .closing (ih hmore)

/-- What is open at last is what was open at first, with what has been opened and not closed. -/
theorem count_eq (h : Opens before passed after) (around : Enclosure) :
    before around + passed.count (.opening around) =
      after around + passed.count (.closing around) := by
  induction h with
  | done => rfl
  | opening _ _ ih => grind [Opened.enter]
  | closing _ ih => grind [Opened.enter]

/-- The limit is kept from beginning to end. -/
theorem le_limit (h : Opens before passed after)
    (hbefore : ∀ around, before around ≤ around.limit) (around : Enclosure) :
    after around ≤ around.limit := by
  induction h with
  | done => exact hbefore around
  | @opening entered opened _ _ hlimit _ ih =>
    refine ih fun other => ?_
    by_cases hkind : other = entered
    · subst hkind
      rw [Opened.enter_self]
      exact hlimit
    · rw [Opened.enter_of_ne hkind]
      exact hbefore other
  | @closing left opened _ _ _ ih =>
    refine ih fun other => Nat.le_trans ?_ (hbefore other)
    rw [Opened.enter]
    split <;> omega

theorem of_prefix (h : Opens before passed after) (hpast : past <+: passed) :
    ∃ now, Opens before past now := by
  induction h generalizing past with
  | done opened =>
    obtain rfl := List.prefix_nil.mp hpast
    exact ⟨opened, .done opened⟩
  | @opening around opened _ _ hlimit _ ih =>
    rcases List.prefix_cons_iff.mp hpast with rfl | ⟨more, rfl, hmore⟩
    · exact ⟨opened, .done opened⟩
    · obtain ⟨now, hnow⟩ := ih hmore
      exact ⟨now, .opening hlimit hnow⟩
  | @closing around opened _ _ _ ih =>
    rcases List.prefix_cons_iff.mp hpast with rfl | ⟨more, rfl, hmore⟩
    · exact ⟨_, .done _⟩
    · obtain ⟨now, hnow⟩ := ih hmore
      exact ⟨now, .closing hnow⟩

/-- Where none is open at first, the limit bounds how many are open at any moment. -/
theorem openCount_le (h : Opens (fun _ => 0) passed after) (hpast : past <+: passed)
    (around : Enclosure) : openCount past around ≤ around.limit := by
  obtain ⟨now, hnow⟩ := h.of_prefix hpast
  have hcount := hnow.count_eq around
  have hle := hnow.le_limit (fun _ => Nat.zero_le _) around
  rw [openCount]
  omega

end Opens

/-! ## Positions -/

/-- Texts in which there are parentheses, made of characters or of tokens `τ`, and the places
that errors `ε` have in them. -/
class Source (τ : Type) (ε : outParam Type) where
  /-- Whether these are the parentheses from `start` up to `rest`. -/
  Passes : (start rest : List τ) → List Paren → Prop
  /-- Whether an error is at the beginning of this part of a text. -/
  IsAt : ε → List τ → Prop
  passes_refl (start : List τ) : Passes start start []
  passes_trans {start middle rest : List τ} {passed more : List Paren}
    (h : Passes start middle passed) (hmore : Passes middle rest more) :
    Passes start rest (passed ++ more)
  suffix_of_passes {start rest : List τ} {passed : List Paren} (h : Passes start rest passed) :
    rest <:+ start

/-- How far a reader has got, and how many parentheses it has open there. -/
structure Position (τ : Type) where
  rest : List τ
  opened : Opened

section Leads

variable {τ ε : Type} [Source τ ε]

/-- Whether these are the parentheses between two positions. -/
structure Leads (start : Position τ) (passed : List Paren) (finish : Position τ) : Prop where
  passes : Source.Passes start.rest finish.rest passed
  opens : Opens start.opened passed finish.opened

variable {start middle finish : Position τ} {passed more : List Paren}

theorem Leads.trans (h : Leads start passed middle) (hmore : Leads middle more finish) :
    Leads start (passed ++ more) finish :=
  ⟨Source.passes_trans h.passes hmore.passes, h.opens.trans hmore.opens⟩

theorem Leads.after {text rest : List τ} {opened : Opened}
    (h : Leads ⟨rest, opened⟩ passed finish) (htext : Source.Passes text rest []) :
    Leads ⟨text, opened⟩ passed finish :=
  ⟨Source.passes_trans htext h.passes, h.opens⟩

variable {text rest : List τ} {opened : Opened} {around : Enclosure}

theorem Leads.opening (h : Source.Passes text rest [.opening around])
    (hlimit : opened around < around.limit) :
    Leads ⟨text, opened⟩ [.opening around] ⟨rest, opened.enter around⟩ :=
  ⟨h, .opening hlimit (.done _)⟩

theorem Leads.closing (h : Source.Passes text rest [.closing around]) :
    Leads ⟨text, opened.enter around⟩ [.closing around] ⟨rest, opened⟩ :=
  ⟨h, .closing (.done opened)⟩

end Leads

/-- What a reader comes to, and the parentheses that it has passed. -/
structure Trail (ε α : Type) where
  passed : List Paren
  result : Except ε α

namespace Trail

variable {ε α β τ : Type}

/-- Goes on from a result, if there is one. -/
def bind (t : Trail ε α) (f : α → Trail ε β) : Trail ε β :=
  match t.result with
  | .ok a => ⟨t.passed ++ (f a).passed, (f a).result⟩
  | .error e => ⟨t.passed, .error e⟩

instance : Monad (Trail ε) where
  pure a := ⟨[], .ok a⟩
  bind := bind

instance : Walk ε (Trail ε) where
  lift x := ⟨[], x⟩
  pass paren := ⟨[paren], .ok ()⟩

variable [Source τ ε] {whole : List τ} {start middle : Position τ} {finish : α → Position τ}
  {t : Trail ε α} {x : Except ε α}

/-- Whether `t` is the trail of a reader that comes to `x`.  It leads to where the reader
finishes, or at least as far as the place of the error, which is in the whole text that the
reader was given. -/
structure Follows (whole : List τ) (start : Position τ) (finish : α → Position τ)
    (t : Trail ε α) (x : Except ε α) : Prop where
  result : t.result = x
  of_ok : ∀ a, x = .ok a → Leads start t.passed (finish a)
  of_error : ∀ e, x = .error e → ∃ stop place, Leads start t.passed stop ∧
    stop.rest <:+ place ∧ place <:+ whole ∧ Source.IsAt e place

namespace Follows

theorem done {a : α} (h : start = finish a) :
    Follows whole start finish (pure a) (.ok a) where
  result := rfl
  of_ok := by
    rintro _ ⟨⟩
    rw [← h]
    exact ⟨Source.passes_refl _, .done _⟩
  of_error := nofun

/-- A reader stops where it is, or because of a place that it has passed. -/
theorem stop {e : ε} {place : List τ} (h : Source.IsAt e place) (hstart : start.rest <:+ place)
    (hplace : place <:+ whole) : Follows whole start finish (Walk.stop e) (Walk.stop e) where
  result := rfl
  of_ok := nofun
  of_error := by
    rintro _ ⟨⟩
    exact ⟨start, place, ⟨Source.passes_refl _, .done _⟩, hstart, hplace, h⟩

/-- A reader stops because of a place that it comes to without a parenthesis. -/
theorem stop_after {e : ε} {place : List τ} (h : Source.IsAt e place)
    (hplace : Source.Passes start.rest place []) (hstart : start.rest <:+ whole) :
    Follows whole start finish (Walk.stop e) (Walk.stop e) where
  result := rfl
  of_ok := nofun
  of_error := by
    rintro _ ⟨⟩
    exact ⟨⟨place, start.opened⟩, place, ⟨hplace, .done _⟩, List.suffix_rfl,
      (Source.suffix_of_passes hplace).trans hstart, h⟩

theorem pass {paren : Paren} {next : Position τ} (h : Leads start [paren] next) :
    Follows whole start (fun _ => next) (Walk.pass paren) (Walk.pass paren) where
  result := rfl
  of_ok _ _ := h
  of_error := nofun

theorem mono {part : List τ} (h : Follows part start finish t x) (hpart : part <:+ whole) :
    Follows whole start finish t x where
  result := h.result
  of_ok := h.of_ok
  of_error e he := by
    obtain ⟨stop, place, hstop, hrest, hplace, he⟩ := h.of_error e he
    exact ⟨stop, place, hstop, hrest, hplace.trans hpart, he⟩

/-- What comes before a reader and has no parentheses leaves no trail. -/
theorem after {rest : List τ} {opened : Opened} (h : Follows rest ⟨rest, opened⟩ finish t x)
    (hwhole : Source.Passes whole rest []) : Follows whole ⟨whole, opened⟩ finish t x where
  result := h.result
  of_ok a ha := (h.of_ok a ha).after hwhole
  of_error e he := by
    obtain ⟨stop, place, hstop, hrest, hplace, he⟩ := h.of_error e he
    exact ⟨stop, place, hstop.after hwhole, hrest,
      hplace.trans (Source.suffix_of_passes hwhole), he⟩

/-- Two steps leave the trail of the first and then that of the second. -/
theorem bind {finish' : β → Position τ} {f : α → Trail ε β} {g : α → Except ε β}
    (h : Follows whole start finish t x)
    (hf : ∀ a, (finish a).rest <:+ start.rest → Follows whole (finish a) finish' (f a) (g a)) :
    Follows whole start finish' (t >>= f) (x >>= g) := by
  obtain ⟨passed, result⟩ := t
  obtain rfl : result = x := h.result
  cases result with
  | error e =>
    exact ⟨rfl, nofun, fun e' he => h.of_error e' (congrArg Except.error (Except.error.inj he))⟩
  | ok a =>
    have hstart := h.of_ok a rfl
    have hmore := hf a (Source.suffix_of_passes hstart.passes)
    refine ⟨hmore.result, fun b hb => hstart.trans (hmore.of_ok b hb), fun e he => ?_⟩
    obtain ⟨stop, place, hstop, hplace⟩ := hmore.of_error e he
    exact ⟨stop, place, hstart.trans hstop, hplace⟩

/-- A reader of a whole text passes its parentheses, all of them or at least those up to the
place of its error, and is never beyond the limit. -/
theorem exists_rest {text : List τ}
    (h : Follows text ⟨text, fun _ => 0⟩ (fun _ => ⟨[], fun _ => 0⟩) t x) :
    (∀ past, past <+: t.passed → ∀ around, openCount past around ≤ around.limit) ∧
      ∃ rest, Source.Passes text rest t.passed ∧ (∀ a, x = .ok a → rest = []) ∧
        ∀ e, x = .error e → ∃ place, rest <:+ place ∧ Source.IsAt e place := by
  cases hx : x with
  | ok a =>
    have hleads := h.of_ok a hx
    exact ⟨fun _ => hleads.opens.openCount_le, [], hleads.passes, fun _ _ => rfl, nofun⟩
  | error e =>
    obtain ⟨stop, place, hleads, hrest, -, hplace⟩ := h.of_error e hx
    refine ⟨fun _ => hleads.opens.openCount_le, stop.rest, hleads.passes, nofun, ?_⟩
    rintro _ ⟨⟩
    exact ⟨place, hrest, hplace⟩

end Follows

/-- Whether a reader leaves as many parentheses open as it finds. -/
def Keeps (opened : Opened) (followed : List τ → Trail ε (α × List τ))
    (reader : List τ → Except ε (α × List τ)) : Prop :=
  ∀ text, Follows text ⟨text, opened⟩ (fun found => ⟨found.2, opened⟩) (followed text)
    (reader text)

end Trail

end PathSets
