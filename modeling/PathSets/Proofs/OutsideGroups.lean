import PathSets.Proofs.Spacing

/-!
# Inside and outside of groups

A group in the text of an expression goes from a bracket to the next closing one, or from a brace
to the next closing one that is not quoted (`IsGroup`).  Where all groups of a text are closed, what
follows it is outside of them (`Outside`); otherwise one of them stays open (`StaysOpen`).  None of
this speaks of scanning.

A scanner reads a text character by character and keeps the group that is open.  Which texts close
that group is settled one character at a time (`OpenGroup.closes_cons_iff`), and so no group is open
after a text exactly if the text leaves none open (`outside_iff_after`).
-/

namespace PathSets

/-! ## Groups -/

/-- What may stand between braces: quoted texts, and whatever else is no closing brace. -/
inductive InBraces : List Char → Prop
  | nil : InBraces []
  | char {c : Char} {text : List Char} (hquote : c ≠ '"') (hclose : c ≠ '}')
      (htext : InBraces text) : InBraces (c :: text)
  | quoted {quoted text : List Char} (hquoted : Quoted quoted) (htext : InBraces text) :
      InBraces ('"' :: (quoted ++ text))

/-- A group with the characters that open and close it.  Another opening character in it means
nothing. -/
inductive IsGroup : List Char → Prop
  | bracket {members : List Char} (hmembers : ']' ∉ members) : IsGroup ('[' :: (members ++ [']']))
  | brace {body : List Char} (hbody : InBraces body) : IsGroup ('{' :: (body ++ ['}']))

/-- Whether a character opens a group. -/
def opensGroup (c : Char) : Bool :=
  c == '[' || c == '{'

/-- A text in which every group is closed, so that what follows it stands outside of them. -/
inductive Outside : List Char → Prop
  | nil : Outside []
  | char {c : Char} {text : List Char} (hc : opensGroup c = false) (htext : Outside text) :
      Outside (c :: text)
  | group {group text : List Char} (hgroup : IsGroup group) (htext : Outside text) :
      Outside (group ++ text)

/-- Whether a text begins with a group that is not closed in it. -/
def StaysOpen (text : List Char) : Prop :=
  (∃ c ∈ text.head?, opensGroup c = true) ∧ ∀ group, group <+: text → ¬IsGroup group

/-- Whether a text leaves the group open that begins with its end `start`. -/
def LeavesOpen (text start : List Char) : Prop :=
  ∃ front, text = front ++ start ∧ Outside front ∧ StaysOpen start

section Groups

variable {c : Char} {text : List Char}

theorem quoted_cons_iff : Quoted (c :: text) ↔
    (c = '"' ∧ text = []) ∨ (c = '\\' ∧ ∃ d more, text = d :: more ∧ Quoted more) ∨
      c ≠ '"' ∧ c ≠ '\\' ∧ Quoted text := by
  constructor
  · intro h
    cases h with
    | close => exact Or.inl ⟨rfl, rfl⟩
    | escape htext => exact Or.inr (Or.inl ⟨rfl, _, _, rfl, htext⟩)
    | char hquote hescape htext => exact Or.inr (Or.inr ⟨hquote, hescape, htext⟩)
  · rintro (⟨rfl, rfl⟩ | ⟨rfl, d, more, rfl, hmore⟩ | ⟨hquote, hescape, htext⟩)
    · exact .close
    · exact .escape hmore
    · exact .char hquote hescape htext

theorem inBraces_cons_iff : InBraces (c :: text) ↔
    (c = '"' ∧ ∃ quoted more, text = quoted ++ more ∧ Quoted quoted ∧ InBraces more) ∨
      c ≠ '"' ∧ c ≠ '}' ∧ InBraces text := by
  constructor
  · intro h
    cases h with
    | char hquote hclose htext => exact Or.inr ⟨hquote, hclose, htext⟩
    | quoted hquoted hmore => exact Or.inl ⟨rfl, _, _, rfl, hquoted, hmore⟩
  · rintro (⟨rfl, quoted, more, rfl, hquoted, hmore⟩ | ⟨hquote, hclose, htext⟩)
    · exact .quoted hquoted hmore
    · exact .char hquote hclose htext

end Groups

/-! ## What closes a group -/

namespace OpenGroup

variable {g g' : OpenGroup} {c : Char} {text close front back start : List Char}

/-- Whether a text goes on in an open group up to the character that closes it. -/
def Closes : OpenGroup → List Char → Prop
  | bracket _, text => ∃ members, text = members ++ [']'] ∧ ']' ∉ members
  | brace _, text => ∃ body, text = body ++ ['}'] ∧ InBraces body
  | quote _, text => ∃ quoted body, text = quoted ++ (body ++ ['}']) ∧ Quoted quoted ∧ InBraces body
  | escape _, text =>
    ∃ d quoted body, text = d :: (quoted ++ (body ++ ['}'])) ∧ Quoted quoted ∧ InBraces body

theorem not_closes_nil (g : OpenGroup) : ¬g.Closes [] := by
  cases g <;> simp [Closes]

theorem closes_bracket_cons :
    (bracket start).Closes (c :: text) ↔
      (c = ']' ∧ text = []) ∨ c ≠ ']' ∧ (bracket start).Closes text := by
  constructor
  · rintro ⟨members, heq, hmembers⟩
    cases members with
    | nil =>
      obtain ⟨rfl, rfl⟩ := List.cons.inj heq
      exact Or.inl ⟨rfl, rfl⟩
    | cons d members =>
      obtain ⟨rfl, rfl⟩ := List.cons.inj heq
      rw [List.mem_cons, not_or] at hmembers
      exact Or.inr ⟨Ne.symm hmembers.1, members, rfl, hmembers.2⟩
  · rintro (⟨rfl, rfl⟩ | ⟨hc, members, rfl, hmembers⟩)
    · exact ⟨[], rfl, List.not_mem_nil⟩
    · exact ⟨c :: members, rfl, by simp [Ne.symm hc, hmembers]⟩

theorem closes_brace_cons :
    (brace start).Closes (c :: text) ↔
      (c = '}' ∧ text = []) ∨ (c = '"' ∧ (quote start).Closes text) ∨
        c ≠ '"' ∧ c ≠ '}' ∧ (brace start).Closes text := by
  constructor
  · rintro ⟨body, heq, hbody⟩
    cases body with
    | nil =>
      obtain ⟨rfl, rfl⟩ := List.cons.inj heq
      exact Or.inl ⟨rfl, rfl⟩
    | cons d body =>
      obtain ⟨rfl, rfl⟩ := List.cons.inj heq
      rcases inBraces_cons_iff.mp hbody with
        ⟨rfl, quoted, more, rfl, hquoted, hmore⟩ | ⟨hquote, hclose, hbody⟩
      · exact Or.inr (Or.inl ⟨rfl, quoted, more, List.append_assoc .., hquoted, hmore⟩)
      · exact Or.inr (Or.inr ⟨hquote, hclose, body, rfl, hbody⟩)
  · rintro (⟨rfl, rfl⟩ | ⟨rfl, quoted, body, rfl, hquoted, hbody⟩ |
      ⟨hquote, hclose, body, rfl, hbody⟩)
    · exact ⟨[], rfl, .nil⟩
    · exact ⟨'"' :: (quoted ++ body), by simp, .quoted hquoted hbody⟩
    · exact ⟨c :: body, rfl, .char hquote hclose hbody⟩

theorem closes_quote_cons :
    (quote start).Closes (c :: text) ↔
      (c = '"' ∧ (brace start).Closes text) ∨ (c = '\\' ∧ (escape start).Closes text) ∨
        c ≠ '"' ∧ c ≠ '\\' ∧ (quote start).Closes text := by
  constructor
  · rintro ⟨quoted, body, heq, hquoted, hbody⟩
    cases quoted with
    | nil => exact absurd hquoted nofun
    | cons d quoted =>
      obtain ⟨rfl, rfl⟩ := List.cons.inj heq
      rcases quoted_cons_iff.mp hquoted with
        ⟨rfl, rfl⟩ | ⟨rfl, d, more, rfl, hmore⟩ | ⟨hquote, hescape, hmore⟩
      · exact Or.inl ⟨rfl, body, rfl, hbody⟩
      · exact Or.inr (Or.inl ⟨rfl, d, more, body, rfl, hmore, hbody⟩)
      · exact Or.inr (Or.inr ⟨hquote, hescape, quoted, body, rfl, hmore, hbody⟩)
  · rintro (⟨rfl, body, rfl, hbody⟩ | ⟨rfl, d, quoted, body, rfl, hquoted, hbody⟩ |
      ⟨hquote, hescape, quoted, body, rfl, hquoted, hbody⟩)
    · exact ⟨['"'], body, rfl, .close, hbody⟩
    · exact ⟨'\\' :: d :: quoted, body, rfl, .escape hquoted, hbody⟩
    · exact ⟨c :: quoted, body, rfl, .char hquote hescape hquoted, hbody⟩

theorem closes_escape_cons :
    (escape start).Closes (c :: text) ↔ (quote start).Closes text := by
  constructor
  · rintro ⟨d, quoted, body, heq, hquoted, hbody⟩
    exact ⟨quoted, body, (List.cons.inj heq).2, hquoted, hbody⟩
  · rintro ⟨quoted, body, rfl, hquoted, hbody⟩
    exact ⟨c, quoted, body, rfl, hquoted, hbody⟩

/-- A text closes a group by its first character, or what follows closes the group that is open
after it. -/
theorem closes_cons_iff (g : OpenGroup) :
    g.Closes (c :: text) ↔
      (g.step c = none ∧ text = []) ∨ ∃ g', g.step c = some g' ∧ g'.Closes text := by
  cases g with
  | bracket s =>
    rw [closes_bracket_cons, step]
    by_cases hc : c = ']' <;> simp [hc]
  | brace s =>
    rw [closes_brace_cons, step]
    by_cases hclose : c = '}'
    · simp [hclose]
    · by_cases hquote : c = '"' <;> simp [hclose, hquote]
  | quote s =>
    rw [closes_quote_cons, step]
    by_cases hescape : c = '\\'
    · simp [hescape]
    · by_cases hquote : c = '"' <;> simp [hescape, hquote]
  | escape s =>
    rw [closes_escape_cons, step]
    simp

/-! ## The open group after a text -/

theorem after_append (group : Option OpenGroup) (front back : List Char) :
    after group (front ++ back) = after (after group front) back := by
  induction front generalizing group with
  | nil => cases group <;> rfl
  | cons c front ih => cases group <;> exact ih _

/-- What is open after a text does not depend on where the open group began. -/
theorem after_startAt_eq_none (group : Option OpenGroup) (start text : List Char) :
    after (group.map (startAt start)) text = none ↔ after group text = none := by
  induction text generalizing group with
  | nil => cases group <;> simp [after]
  | cons c text ih =>
    cases group with
    | none => exact Iff.rfl
    | some g =>
      rw [Option.map_some, after, after, step_startAt]
      exact ih _

theorem after_of_closes (h : g.Closes text) : after (some g) text = none := by
  induction text generalizing g with
  | nil => exact absurd h (not_closes_nil g)
  | cons c text ih =>
    rw [after]
    rcases (closes_cons_iff g).mp h with ⟨hstep, rfl⟩ | ⟨g', hstep, h'⟩
    · rw [hstep]
      rfl
    · rw [hstep]
      exact ih h'

/-- A group that is not open any more has been closed somewhere. -/
theorem exists_closes_of_after (h : after (some g) text = none) :
    ∃ close rest, text = close ++ rest ∧ g.Closes close ∧ after none rest = none := by
  induction text generalizing g with
  | nil => exact absurd h (by simp [after])
  | cons c text ih =>
    rw [after] at h
    cases hstep : g.step c with
    | none =>
      rw [hstep] at h
      exact ⟨[c], text, rfl, (closes_cons_iff g).mpr (Or.inl ⟨hstep, rfl⟩), h⟩
    | some g' =>
      rw [hstep] at h
      obtain ⟨close, rest, rfl, hclose, hrest⟩ := ih h
      exact ⟨c :: close, rest, rfl, (closes_cons_iff g).mpr (Or.inr ⟨g', hstep, hclose⟩), hrest⟩

theorem ofText?_eq_none_iff : ofText? [c] = none ↔ opensGroup c = false := by
  by_cases hbracket : c = '['
  · subst hbracket
    decide
  by_cases hbrace : c = '{'
  · subst hbrace
    decide
  · simp [ofText?, opensGroup, hbracket, hbrace]

/-- A group is a character that opens it and a text that closes it. -/
theorem isGroup_cons_iff :
    IsGroup (c :: text) ↔ ∃ g, ofText? [c] = some g ∧ g.Closes text := by
  constructor
  · intro h
    cases h with
    | bracket hmembers => exact ⟨bracket ['['], rfl, _, rfl, hmembers⟩
    | brace hbody => exact ⟨brace ['{'], rfl, _, rfl, hbody⟩
  · rintro ⟨g, hg, hclose⟩
    unfold ofText? at hg
    split at hg
    · next heq =>
      obtain ⟨rfl, -⟩ := List.cons.inj heq
      obtain rfl := Option.some.inj hg
      obtain ⟨members, rfl, hmembers⟩ := hclose
      exact .bracket hmembers
    · next heq =>
      obtain ⟨rfl, -⟩ := List.cons.inj heq
      obtain rfl := Option.some.inj hg
      obtain ⟨body, rfl, hbody⟩ := hclose
      exact .brace hbody
    · exact absurd hg (by simp)

theorem not_isGroup_nil : ¬IsGroup [] := nofun

end OpenGroup

/-! ## Outside of groups -/

open OpenGroup

variable {c : Char} {text front start group : List Char}

theorem after_of_isGroup (h : IsGroup group) : after none group = none := by
  cases group with
  | nil => exact absurd h not_isGroup_nil
  | cons c close =>
    obtain ⟨g, hg, hclose⟩ := isGroup_cons_iff.mp h
    rw [after, hg]
    exact after_of_closes hclose

/-- No group is open after a text if and only if all its groups are closed. -/
theorem outside_iff_after : Outside text ↔ after none text = none := by
  constructor
  · intro h
    induction h with
    | nil => rfl
    | char hc _ ih => rwa [after, ofText?_eq_none_iff.mpr hc]
    | group hgroup _ ih => rwa [after_append, after_of_isGroup hgroup]
  · intro h
    induction hlength : text.length using Nat.strong_induction_on generalizing text with
    | _ length ih =>
    subst hlength
    cases text with
    | nil => exact .nil
    | cons c text =>
      rw [after] at h
      cases hg : ofText? [c] with
      | none =>
        rw [hg] at h
        exact .char (ofText?_eq_none_iff.mp hg) (ih text.length (Nat.lt_succ_self _) h rfl)
      | some g =>
        rw [hg] at h
        obtain ⟨close, rest, rfl, hclose, hrest⟩ := exists_closes_of_after h
        have hshorter : rest.length < (c :: (close ++ rest)).length := by
          rw [List.length_cons, List.length_append]
          omega
        exact .group (isGroup_cons_iff.mpr ⟨g, hg, hclose⟩) (ih rest.length hshorter hrest rfl)

/-- What follows a text outside of groups is outside of them if and only if it is so by
itself. -/
theorem outside_append_iff (h : Outside front) : Outside (front ++ text) ↔ Outside text := by
  rw [outside_iff_after] at h
  rw [outside_iff_after, outside_iff_after, after_append, h]

/-- A group stays open if and only if nothing of it is outside of it. -/
theorem staysOpen_cons_iff :
    StaysOpen (c :: text) ↔ ∀ front, front <+: text → ¬Outside (c :: front) := by
  constructor
  · rintro ⟨⟨d, hd, hc⟩, hgroups⟩ front hfront houtside
    obtain rfl : c = d := Option.some.inj hd
    have hprefix : c :: front <+: c :: text := List.cons_prefix_cons.mpr ⟨rfl, hfront⟩
    generalize hwhole : c :: front = whole at houtside hprefix
    cases houtside with
    | nil => exact absurd hwhole (by simp)
    | char hplain _ =>
      obtain ⟨rfl, -⟩ := List.cons.inj hwhole
      exact absurd hc (by simp [hplain])
    | group hgroup _ => exact hgroups _ ((List.prefix_append _ _).trans hprefix) hgroup
  · intro h
    refine ⟨⟨c, rfl, ?_⟩, fun group hprefix hgroup => ?_⟩
    · rw [← Bool.not_eq_false]
      exact fun hplain => h [] List.nil_prefix (.char hplain .nil)
    · have houtside : Outside group := List.append_nil group ▸ .group hgroup .nil
      cases group with
      | nil => exact not_isGroup_nil hgroup
      | cons d close =>
        obtain ⟨rfl, hclose⟩ := List.cons_prefix_cons.mp hprefix
        exact h close hclose houtside

theorem StaysOpen.not_outside (h : StaysOpen start) (hfront : front <+: start) (hne : front ≠ []) :
    ¬Outside front := by
  cases front with
  | nil => exact absurd rfl hne
  | cons c front =>
    obtain ⟨rest, rfl⟩ := hfront
    exact staysOpen_cons_iff.mp h front (List.prefix_append front rest)

/-- Text outside of groups may stand before the one that is left open. -/
theorem LeavesOpen.append_left (h : LeavesOpen text start) (hfront : Outside front) :
    LeavesOpen (front ++ text) start := by
  obtain ⟨middle, rfl, hmiddle, hstart⟩ := h
  exact ⟨front ++ middle, (List.append_assoc ..).symm, (outside_append_iff hfront).mpr hmiddle,
    hstart⟩

theorem LeavesOpen.not_outside (h : LeavesOpen text start) : ¬Outside text := by
  obtain ⟨front, rfl, hfront, hstart⟩ := h
  rw [outside_append_iff hfront]
  refine hstart.not_outside List.prefix_rfl ?_
  rintro rfl
  obtain ⟨⟨c, hc, -⟩, -⟩ := hstart
  exact absurd hc (by simp)

/-- A text leaves no more than one group open. -/
theorem LeavesOpen.unique {other : List Char} (h : LeavesOpen text start)
    (h' : LeavesOpen text other) : start = other := by
  -- Of two such places, the second would be outside of the group that begins at the first.
  have hle : ∀ {front start other more : List Char}, StaysOpen start → Outside front →
      Outside (front ++ more) → start = more ++ other → start = other := by
    rintro front _ other more hstart hfront hmore rfl
    by_cases hnil : more = []
    · rw [hnil, List.nil_append]
    · rw [outside_append_iff hfront] at hmore
      exact absurd hmore (hstart.not_outside (List.prefix_append more other) hnil)
  obtain ⟨front, rfl, hfront, hstart⟩ := h
  obtain ⟨front', heq, hfront', hother⟩ := h'
  rcases List.append_eq_append_iff.mp heq with ⟨more, rfl, hstarts⟩ | ⟨more, rfl, hstarts⟩
  · exact hle hstart hfront hfront' hstarts
  · exact (hle hother hfront' hfront hstarts).symm

end PathSets
