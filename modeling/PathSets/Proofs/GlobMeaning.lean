import PathSets.Proofs.PathText
import PathSets.Proofs.RegexMeaning

/-!
# What globs match

A glob is a row of items: any text, any character, sets of characters, and characters that
stand for themselves.  `Glob.Item.Takes` says which parts of a name an item takes, without
any regular expression, and a name is covered by a glob if it is made up of such parts
(`Glob.Covers`).

The regular expression of a glob has one piece for each item (`Glob.readPieces_items`), and
each piece matches what its item takes (`Glob.Item.matches_piece_iff`).  So a name is accepted
exactly if it is covered (`Glob.accepts_iff_covers`), and with a standard engine it fits the
glob exactly if it is covered (`Glob.fits_iff_covers`).

This holds for sets that list characters of names and ranges between them.  A set with a `-`
at another place means something else as a bracket class.
-/

namespace PathSets

theorem CharRange.contains_iff {range : CharRange} {c : Char} :
    range.contains c = true ↔ range.first ≤ c ∧ c ≤ range.last := by
  simp [contains]

namespace Regex

variable {atom : Atom} {pieces : Regex} {text rest : List Char} {limit : Nat}

/-- An atom is read as a piece that stands once if no star follows. -/
theorem readPieces_once (hatom : readAtom text = some (atom, rest)) (hend : text.head? ≠ some ')')
    (hrest : rest.head? ≠ some '*') :
    readPieces (limit + 1) text = (readPieces limit rest).map (⟨atom, false⟩ :: ·) := by
  rw [readPieces.eq_3 _ _ (by rintro rfl; exact hend rfl), hatom]
  simp only [bind, Option.bind, pure]
  split
  · exact absurd rfl hrest
  · cases readPieces limit rest <;> rfl

/-- An atom and a star are read as a piece that repeats. -/
theorem readPieces_starred (hatom : readAtom text = some (atom, '*' :: rest))
    (hend : text.head? ≠ some ')') :
    readPieces (limit + 1) text = (readPieces limit rest).map (⟨atom, true⟩ :: ·) := by
  rw [readPieces.eq_3 _ _ (by rintro rfl; exact hend rfl), hatom]
  simp only [bind, Option.bind, pure]
  cases readPieces limit rest <;> rfl

/-- A dot with a star matches any text without line feeds. -/
theorem matches_anyText_iff (htext : ∀ c ∈ text, c ≠ '\n') :
    Matches (⟨.any, true⟩ :: pieces) text ↔
      ∃ part rest, text = part ++ rest ∧ Matches pieces rest := by
  constructor
  · intro h
    induction text with
    | nil => exact ⟨[], [], rfl, matches_starred_nil_iff.mp h⟩
    | cons c text ih =>
      rcases matches_starred_cons_iff.mp h with hstop | ⟨-, hagain⟩
      · exact ⟨[], c :: text, rfl, hstop⟩
      · obtain ⟨part, rest, rfl, hrest⟩ := ih (List.forall_mem_cons.mp htext).2 hagain
        exact ⟨c :: part, rest, rfl, hrest⟩
  · rintro ⟨part, rest, rfl, hrest⟩
    induction part with
    | nil => exact .stop hrest
    | cons c part ih =>
      obtain ⟨hc, hpart⟩ := List.forall_mem_cons.mp htext
      exact .again (by simpa [Atom.accepts] using hc) (ih hpart)

/-- An atom that stands once matches one of the characters that it takes. -/
theorem matches_one_iff (takes : Char → Prop) (h : ∀ c ∈ text, atom.accepts c = true ↔ takes c) :
    Matches (⟨atom, false⟩ :: pieces) text ↔
      ∃ part rest, text = part ++ rest ∧ (∃ c, part = [c] ∧ takes c) ∧ Matches pieces rest := by
  constructor
  · intro hmatches
    cases text with
    | nil => exact absurd hmatches not_matches_once_nil
    | cons c text =>
      obtain ⟨hc, hrest⟩ := matches_once_cons_iff.mp hmatches
      exact ⟨[c], text, rfl, ⟨c, rfl, (h c (by simp)).mp hc⟩, hrest⟩
  · rintro ⟨part, rest, rfl, ⟨c, rfl, hc⟩, hrest⟩
    exact matches_once_cons_iff.mpr ⟨(h c (by simp)).mpr hc, hrest⟩

end Regex

namespace Glob

/-! ## Globs as rows of items -/

/-- What a set lists: one character, or all from one character to another. -/
inductive Member where
  | one (c : Char)
  | range (first last : Char)
  deriving DecidableEq, Repr

namespace Member

/-- The written form of a member. -/
def write : Member → List Char
  | one c => [c]
  | range first last => [first, '-', last]

/-- Whether the member lists a character. -/
def Lists : Member → Char → Prop
  | one c, d => d = c
  | range first last, d => first ≤ d ∧ d ≤ last

/-- A character of names, or a range between two of them that does not run backwards. -/
def WellFormed : Member → Prop
  | one c => isNameChar c = true
  | range first last => isNameChar first = true ∧ isNameChar last = true ∧ first ≤ last

instance : DecidablePred WellFormed
  | one c => inferInstanceAs (Decidable (isNameChar c = true))
  | range first last =>
    inferInstanceAs (Decidable (isNameChar first = true ∧ isNameChar last = true ∧ first ≤ last))

end Member

/-- One item of a glob. -/
inductive Item where
  | anyText
  | anyChar
  | set (negated : Bool) (members : List Member)
  | char (c : Char)
  deriving DecidableEq, Repr

namespace Item

/-- The written form of an item. -/
def write : Item → List Char
  | anyText => ['*']
  | anyChar => ['?']
  | set negated members =>
    '[' :: (if negated then ['!'] else []) ++ members.flatMap Member.write ++ [']']
  | char c => [c]

/-- An item whose written form can mean nothing else. -/
def WellFormed : Item → Prop
  | anyText => True
  | anyChar => True
  | set _ members => ∀ member ∈ members, member.WellFormed
  | char c => c ≠ '*' ∧ c ≠ '?' ∧ c ≠ '['

instance : DecidablePred WellFormed
  | anyText | anyChar => inferInstanceAs (Decidable True)
  | set _ members => inferInstanceAs (Decidable (∀ member ∈ members, member.WellFormed))
  | char c => inferInstanceAs (Decidable (c ≠ '*' ∧ c ≠ '?' ∧ c ≠ '['))

/-- The parts of a name that an item takes. -/
def Takes : Item → List Char → Prop
  | anyText, _ => True
  | anyChar, part => ∃ c, part = [c]
  | set negated members, part =>
    ∃ c, part = [c] ∧ ((∃ member ∈ members, member.Lists c) ↔ negated = false)
  | char c, part => part = [c]

end Item

/-- Whether a text is the written form of these items. -/
structure Spells (items : List Item) (text : List Char) : Prop where
  wellFormed : ∀ item ∈ items, item.WellFormed
  write : text = items.flatMap Item.write

/-- Whether a name is made up of parts that the items take, in order. -/
inductive Covers : List Item → List Char → Prop
  | done : Covers [] []
  | item {item : Item} {items : List Item} {part name : List Char} (h : item.Takes part)
      (rest : Covers items name) : Covers (item :: items) (part ++ name)

section Covers

variable {item : Item} {items : List Item} {name : List Char}

theorem covers_nil_iff : Covers [] name ↔ name = [] := by
  constructor
  · intro h
    cases h
    rfl
  · rintro rfl
    exact .done

theorem covers_cons_iff :
    Covers (item :: items) name ↔
      ∃ part rest, name = part ++ rest ∧ item.Takes part ∧ Covers items rest := by
  constructor
  · intro h
    cases h with
    | item h rest => exact ⟨_, _, rfl, h, rest⟩
  · rintro ⟨part, rest, rfl, h, hrest⟩
    exact .item h hrest

end Covers

/-! ## Items as pieces -/

namespace Member

variable {members : List Member} {m : Member} {rest : List Char} {c : Char}

/-- The member as a range of a bracket class. -/
def toRange : Member → CharRange
  | one c => ⟨c, c⟩
  | range first last => ⟨first, last⟩

theorem contains_toRange : m.toRange.contains c = true ↔ m.Lists c := by
  rw [CharRange.contains_iff]
  cases m with
  | one d =>
    constructor
    · rintro ⟨hle, hge⟩
      exact Char.le_antisymm hge hle
    · rintro rfl
      exact ⟨Char.le_refl c, Char.le_refl c⟩
  | range first last => exact Iff.rfl

/-- The class of the ranges has the listed characters, or the others if it is turned around. -/
theorem contains_toRanges {negated : Bool} :
    CharClass.contains ⟨negated, members.map toRange, []⟩ c = true ↔
      ((∃ member ∈ members, member.Lists c) ↔ negated = false) := by
  have hlisted : (members.map toRange).any (·.contains c) = true ↔
      ∃ member ∈ members, member.Lists c := by
    simp [contains_toRange]
  rw [← hlisted]
  cases negated <;> simp [CharClass.contains]

/-- A member begins with a character of names and goes on with others and with `-`. -/
theorem WellFormed.write_cases (h : m.WellFormed) :
    ∃ c more, m.write = c :: more ∧ isNameChar c = true ∧
      ∀ d ∈ more, (isNameChar d || d == '-') = true := by
  cases m with
  | one c => exact ⟨c, [], rfl, h, nofun⟩
  | range first last => exact ⟨first, ['-', last], rfl, h.1, by simp [h.2.1]⟩

/-- In the text of members there is nothing but characters of names and `-`. -/
theorem isMember_of_mem_write (h : ∀ member ∈ members, member.WellFormed)
    (hc : c ∈ members.flatMap write) : (isNameChar c || c == '-') = true := by
  obtain ⟨member, hmember, hc⟩ := List.mem_flatMap.mp hc
  obtain ⟨d, more, hwrite, hd, hmore⟩ := (h member hmember).write_cases
  rw [hwrite] at hc
  rcases List.mem_cons.mp hc with rfl | hc
  · simp [hd]
  · exact hmore c hc

/-- A written member is read back as its range. -/
theorem readMembers_write (h : m.WellFormed) (hrest : rest.head? ≠ some '-') :
    CharClass.readMembers (m.write ++ rest) =
      (CharClass.readMembers rest).map fun (group, more) => (m.toRange :: group, more) := by
  have hne : ∀ {c d : Char}, isNameChar c = true → isNameChar d = false → c ≠ d :=
    ne_of_isNameChar
  cases m with
  | one c =>
    have hc : isNameChar c = true := h
    simp only [write, toRange, List.singleton_append]
    rw [CharClass.readMembers]
    · exact hne hc (by decide)
    · exact fun _ heq _ => hne hc (by decide) heq
    · rintro d more rfl
      exact hrest rfl
  | range first last =>
    obtain ⟨hfirst, hlast, hle⟩ := h
    simp only [write, toRange, List.cons_append, List.nil_append]
    rw [CharClass.readMembers]
    · rw [if_neg (by simp [hne hlast (show isNameChar ']' = false by decide),
        hne hlast (show isNameChar '-' = false by decide)]), if_pos hle]
    · exact hne hfirst (by decide)
    · exact hne hfirst (by decide)

/-- Written members up to the closing bracket begin with a character of names or with the
bracket. -/
theorem head_members (h : ∀ member ∈ members, member.WellFormed) :
    ∀ c ∈ (members.flatMap write ++ ']' :: rest).head?, isNameChar c = true ∨ c = ']' := by
  cases members with
  | nil => simp
  | cons member members =>
    obtain ⟨c, more, hwrite, hc, -⟩ := (h member (by simp)).write_cases
    simp [hwrite, hc]

theorem readMembers_members (h : ∀ member ∈ members, member.WellFormed) :
    CharClass.readMembers (members.flatMap write ++ ']' :: rest) =
      some (members.map toRange, [], rest) := by
  induction members with
  | nil => rfl
  | cons member members ih =>
    have htail := fun m hm => h m (List.mem_cons_of_mem member hm)
    have hhead : (members.flatMap write ++ ']' :: rest).head? ≠ some '-' := by
      intro heq
      rcases head_members htail '-' heq with hc | hc <;> exact absurd hc (by decide)
    rw [List.flatMap_cons, List.append_assoc, readMembers_write (h member (by simp)) hhead,
      ih htail]
    rfl

/-- A written set is read back as the class of its ranges. -/
theorem read_members (negated : Bool) (h : ∀ member ∈ members, member.WellFormed) :
    CharClass.read ((if negated then ['^'] else []) ++ (members.flatMap write ++ ']' :: rest)) =
      some (⟨negated, members.map toRange, []⟩, rest) := by
  have hhead : ∀ {c : Char}, isNameChar c = false → c ≠ ']' →
      ∀ more, members.flatMap write ++ ']' :: rest ≠ c :: more := by
    intro c hc hclose more heq
    rcases head_members h c (by rw [heq]; rfl) with hname | hbracket
    · exact absurd hname (by simp [hc])
    · exact hclose hbracket
  have hleading : CharClass.readLeading (members.flatMap write ++ ']' :: rest) =
      some (members.map toRange, [], rest) := by
    rw [CharClass.readLeading]
    · exact readMembers_members h
    · exact hhead (by decide) (by decide)
  cases negated with
  | true => simp [CharClass.read, hleading]
  | false =>
    rw [if_neg (by simp), List.nil_append, CharClass.read]
    · simp [hleading]
    · exact hhead (by decide) (by decide)

end Member

/-! ### The text of the regular expression -/

section Sets

variable {namespaced wild : Bool} {state : SetState} {members rest : List Char} {c d : Char}

/-- What may stand in a set is none of the characters that may not. -/
theorem ne_of_isMember (hc : (isNameChar c || c == '-') = true)
    (hd : (isNameChar d || d == '-') = false) : c ≠ d := by
  rintro rfl
  exact absurd hc (by simp [hd])

/-- Members of a set stay what they are in the regular expression. -/
theorem regexTextFrom_members (hstate : state ≠ .outside)
    (h : ∀ c ∈ members, (isNameChar c || c == '-') = true) :
    regexTextFrom state (members ++ ']' :: rest) =
      members ++ ']' :: regexTextFrom .outside rest := by
  induction members generalizing state with
  | nil => cases state <;> simp [regexTextFrom] at hstate ⊢
  | cons c members ih =>
    obtain ⟨hc, hmembers⟩ := List.forall_mem_cons.mp h
    have hbang : c ≠ '!' := ne_of_isMember hc (by decide)
    have hclose : c ≠ ']' := ne_of_isMember hc (by decide)
    have hinside := ih (show SetState.inside ≠ .outside by decide) hmembers
    cases state with
    | outside => exact absurd rfl hstate
    | opened => simp [regexTextFrom, hbang, hclose, hinside]
    | negated | inside => simp [regexTextFrom, hclose, hinside]

/-- A glob goes on after a set. -/
theorem isGlobFrom_members (hstate : state ≠ .outside)
    (h : ∀ c ∈ members, (isNameChar c || c == '-') = true)
    (hglob : isGlobFrom namespaced state wild (members ++ ']' :: rest) = true) :
    isGlobFrom namespaced .outside wild rest = true := by
  induction members generalizing state with
  | nil =>
    have hclose : isNameChar ']' = false := by decide
    cases state with
    | outside => exact absurd rfl hstate
    | opened | negated => exact absurd hglob (by simp [isGlobFrom, hclose])
    | inside => simpa [isGlobFrom] using hglob
  | cons c members ih =>
    obtain ⟨hc, hmembers⟩ := List.forall_mem_cons.mp h
    have hbang : c ≠ '!' := ne_of_isMember hc (by decide)
    have hclose : c ≠ ']' := ne_of_isMember hc (by decide)
    refine ih (show SetState.inside ≠ .outside by decide) hmembers ?_
    cases state with
    | outside => exact absurd rfl hstate
    | opened => simpa [isGlobFrom, hbang, hc] using hglob
    | negated => simpa [isGlobFrom, hc] using hglob
    | inside => simpa [isGlobFrom, hclose, hc] using hglob

end Sets

namespace Item

variable {item : Item} {pieces : Regex} {name rest : List Char} {limit : Nat}
  {namespaced wild : Bool}

/-- The text of an item in the regular expression. -/
def regexText : Item → List Char
  | anyText => ['.', '*']
  | anyChar => ['.']
  | set negated members =>
    '[' :: (if negated then ['^'] else []) ++ members.flatMap Member.write ++ [']']
  | char c => [c]

/-- The piece of the regular expression for an item. -/
def piece : Item → Piece
  | anyText => ⟨.any, true⟩
  | anyChar => ⟨.any, false⟩
  | set negated members => ⟨.set ⟨negated, members.map Member.toRange, []⟩, false⟩
  | char c => ⟨.char c, false⟩

/-- An item whose characters mean nothing special in a regular expression. -/
def IsPlain : Item → Prop
  | char c => isNameChar c = true ∨ c = ':'
  | _ => True

/-- A plain character is none of those that stand neither in names nor between them. -/
theorem IsPlain.ne {c d : Char} (h : (char c).IsPlain) (hd : isNameChar d = false)
    (hcolon : d ≠ ':') : c ≠ d := by
  rintro rfl
  rcases h with hname | hc
  · exact absurd hname (by simp [hd])
  · exact hcolon hc

theorem regexTextFrom_write (h : item.WellFormed) :
    regexTextFrom .outside (item.write ++ rest) =
      item.regexText ++ regexTextFrom .outside rest := by
  cases item with
  | anyText => rfl
  | anyChar => rfl
  | char c =>
    obtain ⟨hmany, hone, hset⟩ := h
    simp [write, regexText, regexTextFrom, hmany, hone, hset]
  | set negated members =>
    have hmembers : ∀ {state : SetState}, state ≠ .outside →
        regexTextFrom state (members.flatMap Member.write ++ ']' :: rest) =
          members.flatMap Member.write ++ ']' :: regexTextFrom .outside rest :=
      fun hstate => regexTextFrom_members hstate fun c => Member.isMember_of_mem_write h
    cases negated with
    | true => simp [write, regexText, regexTextFrom, hmembers]
    | false => simp [write, regexText, regexTextFrom, hmembers]

theorem isPlain_of_isGlobFrom (h : item.WellFormed)
    (hglob : isGlobFrom namespaced .outside wild (item.write ++ rest) = true) :
    item.IsPlain ∧ ∃ wild, isGlobFrom namespaced .outside wild rest = true := by
  cases item with
  | anyText => exact ⟨trivial, true, hglob⟩
  | anyChar => exact ⟨trivial, true, hglob⟩
  | char c =>
    obtain ⟨hmany, hone, hset⟩ := h
    rw [write, List.singleton_append, isGlobFrom, if_neg (by simpa using hset),
      if_neg (by simp [hmany, hone])] at hglob
    split at hglob
    · next hplain =>
      have hc : isNameChar c = true ∨ namespaced = true ∧ c = ':' := by simpa using hplain
      exact ⟨hc.imp_right And.right, wild, hglob⟩
    · exact absurd hglob (by simp)
  | set negated members =>
    have hmembers : ∀ c ∈ members.flatMap Member.write, (isNameChar c || c == '-') = true :=
      fun c => Member.isMember_of_mem_write h
    refine ⟨trivial, true, ?_⟩
    cases negated with
    | true =>
      refine isGlobFrom_members (show SetState.negated ≠ .outside by decide) hmembers ?_
      simpa [write, isGlobFrom] using hglob
    | false =>
      refine isGlobFrom_members (show SetState.opened ≠ .outside by decide) hmembers ?_
      simpa [write, isGlobFrom] using hglob

/-- A plain item is read back as its piece, if nothing repeats it. -/
theorem readPieces_regexText (h : item.WellFormed) (hplain : item.IsPlain)
    (hrest : rest.head? ≠ some '*') :
    Regex.readPieces (limit + 1) (item.regexText ++ rest) =
      (Regex.readPieces limit rest).map (item.piece :: ·) := by
  cases item with
  | anyText =>
    have hatom : Regex.readAtom ('.' :: '*' :: rest) = some (.any, '*' :: rest) := rfl
    exact Regex.readPieces_starred hatom (by simp [regexText])
  | anyChar =>
    have hatom : Regex.readAtom ('.' :: rest) = some (.any, rest) := rfl
    exact Regex.readPieces_once hatom (by simp [regexText]) hrest
  | set negated members =>
    refine Regex.readPieces_once ?_ (by simp [regexText]) hrest
    simp [regexText, Regex.readAtom, Member.read_members negated h]
  | char c =>
    have hatom : Regex.readAtom (c :: rest) = some (.char c, rest) := by
      rw [Regex.readAtom]
      · exact hplain.ne (by decide) (by decide)
      · exact hplain.ne (by decide) (by decide)
    have hend : c ≠ ')' := hplain.ne (by decide) (by decide)
    exact Regex.readPieces_once hatom (by simpa [regexText] using hend) hrest

/-- The text of a plain item does not begin with a star. -/
theorem head_regexText (hplain : item.IsPlain) : (item.regexText ++ rest).head? ≠ some '*' := by
  cases item with
  | char c =>
    have hstar : c ≠ '*' := hplain.ne (by decide) (by decide)
    simpa [regexText] using hstar
  | anyText | anyChar | set => simp [regexText]

/-- The piece of an item matches what the item takes. -/
theorem matches_piece_iff (hname : ∀ c ∈ name, c ≠ '\n') :
    Regex.Matches (item.piece :: pieces) name ↔
      ∃ part rest, name = part ++ rest ∧ item.Takes part ∧ Regex.Matches pieces rest := by
  cases item with
  | anyText => simpa [piece, Takes] using Regex.matches_anyText_iff hname
  | anyChar =>
    have hany : ∀ c ∈ name, Atom.any.accepts c = true ↔ True :=
      fun c hc => by simpa [Atom.accepts] using hname c hc
    simpa [piece, Takes] using Regex.matches_one_iff (fun _ => True) hany
  | set negated members => exact Regex.matches_one_iff _ fun c _ => Member.contains_toRanges
  | char c =>
    have hchar : ∀ d ∈ name, (Atom.char c).accepts d = true ↔ d = c :=
      fun d _ => by rw [Atom.accepts, beq_iff_eq, eq_comm]
    simpa [piece, Takes] using Regex.matches_one_iff (· = c) hchar

end Item

/-! ## Rows of items as regular expressions -/

section Rows

variable {items : List Item} {text name : List Char} {limit : Nat} {namespaced wild : Bool}

theorem regexTextFrom_items (h : ∀ item ∈ items, item.WellFormed) :
    regexTextFrom .outside (items.flatMap Item.write) = items.flatMap Item.regexText := by
  induction items with
  | nil => rfl
  | cons item items ih =>
    obtain ⟨hitem, hitems⟩ := List.forall_mem_cons.mp h
    rw [List.flatMap_cons, Item.regexTextFrom_write hitem, ih hitems, List.flatMap_cons]

theorem isPlain_of_isGlobFrom (h : ∀ item ∈ items, item.WellFormed)
    (hglob : isGlobFrom namespaced .outside wild (items.flatMap Item.write) = true) :
    ∀ item ∈ items, item.IsPlain := by
  induction items generalizing wild with
  | nil => simp
  | cons item items ih =>
    obtain ⟨hitem, hitems⟩ := List.forall_mem_cons.mp h
    obtain ⟨hplain, wild', hrest⟩ := Item.isPlain_of_isGlobFrom hitem hglob
    exact List.forall_mem_cons.mpr ⟨hplain, ih hitems hrest⟩

/-- No text of plain items begins with a star. -/
theorem head_regexTexts (hplain : ∀ item ∈ items, item.IsPlain) :
    (items.flatMap Item.regexText ++ [')', '$']).head? ≠ some '*' := by
  cases items with
  | nil => simp
  | cons item items =>
    rw [List.flatMap_cons, List.append_assoc]
    exact Item.head_regexText (hplain item (by simp))

/-- A row of plain items is read back as their pieces. -/
theorem readPieces_items (h : ∀ item ∈ items, item.WellFormed)
    (hplain : ∀ item ∈ items, item.IsPlain) (hlimit : items.length ≤ limit) :
    Regex.readPieces limit (items.flatMap Item.regexText ++ [')', '$']) =
      some (items.map Item.piece) := by
  induction items generalizing limit with
  | nil => exact Regex.readPieces.eq_1 limit
  | cons item items ih =>
    obtain ⟨hitem, hitems⟩ := List.forall_mem_cons.mp h
    obtain ⟨hone, hrest⟩ := List.forall_mem_cons.mp hplain
    obtain ⟨limit, rfl⟩ : ∃ fewer, limit = fewer + 1 :=
      Nat.exists_eq_add_one.mpr (Nat.zero_lt_of_lt hlimit)
    rw [List.flatMap_cons, List.append_assoc,
      Item.readPieces_regexText hitem hone (head_regexTexts hrest),
      ih hitems hrest (by simpa using hlimit)]
    rfl

/-- No item has an empty text. -/
theorem length_le_regexTexts : items.length ≤ (items.flatMap Item.regexText).length := by
  induction items with
  | nil => simp
  | cons item items ih =>
    have hitem : 1 ≤ item.regexText.length := by cases item <;> simp [Item.regexText]
    rw [List.flatMap_cons, List.length_append, List.length_cons]
    omega

/-- The pieces of a row of items match what the items cover. -/
theorem matches_pieces_iff (hname : ∀ c ∈ name, c ≠ '\n') :
    Regex.Matches (items.map Item.piece) name ↔ Covers items name := by
  induction items generalizing name with
  | nil => rw [List.map_nil, Regex.matches_nil_iff, covers_nil_iff]
  | cons item items ih =>
    rw [List.map_cons, Item.matches_piece_iff hname, covers_cons_iff]
    constructor
    · rintro ⟨part, rest, rfl, hpart, hrest⟩
      exact ⟨part, rest, rfl, hpart, (ih fun c hc => hname c (by simp [hc])).mp hrest⟩
    · rintro ⟨part, rest, rfl, hpart, hrest⟩
      exact ⟨part, rest, rfl, hpart, (ih fun c hc => hname c (by simp [hc])).mpr hrest⟩

/-- The names of prims and of properties have no line feeds. -/
theorem ne_lineFeed_of_isName (hname : isIdentifier name = true ∨ isPropertyName name = true) :
    ∀ c ∈ name, c ≠ '\n' := by
  rintro c hc rfl
  rcases hname with hprim | hproperty
  · exact absurd (isNameChar_of_isIdentifier hprim _ hc) (by decide)
  · rcases isNameChar_of_isPropertyName hproperty _ hc with hchar | hcolon
    · exact absurd hchar (by decide)
    · exact absurd hcolon (by decide)

/-- The regular expression of a glob is read as one piece for each item. -/
theorem read_toRegexText (hglob : isGlob namespaced text = true) (hspells : Spells items text) :
    Regex.read (toRegexText text) = some (items.map Item.piece) := by
  obtain ⟨hitems, rfl⟩ := hspells
  have hplain : ∀ item ∈ items, item.IsPlain := isPlain_of_isGlobFrom hitems hglob
  have htext : toRegexText (items.flatMap Item.write) =
      '^' :: '(' :: '?' :: ':' :: (items.flatMap Item.regexText ++ [')', '$']) := by
    rw [toRegexText, regexTextFrom_items hitems]
    rfl
  rw [htext, Regex.read]
  exact readPieces_items hitems hplain (by
    rw [List.length_append]
    exact Nat.le_add_right_of_le length_le_regexTexts)

/-- The regular expression of a glob can be read, and it accepts the names that the glob
covers. -/
theorem accepts_iff_covers (hglob : isGlob namespaced text = true) (hspells : Spells items text)
    (hname : isIdentifier name = true ∨ isPropertyName name = true) :
    ∃ r, Regex.read (toRegexText text) = some r ∧ (r.accepts name = true ↔ Covers items name) := by
  refine ⟨items.map Item.piece, read_toRegexText hglob hspells, ?_⟩
  rw [Regex.accepts_iff_matches, matches_pieces_iff (ne_lineFeed_of_isName hname)]

/-- With a standard engine the names that fit a glob are those that it covers, provided that
the engine accepts its regular expression. -/
theorem fits_iff_covers {library : Library} (hengine : library.engine.IsStandard)
    {shape name : String} (hglob : isGlob namespaced shape.toList = true)
    (hspells : Spells items shape.toList)
    (hname : isIdentifier name.toList = true ∨ isPropertyName name.toList = true) :
    Fits library shape name ↔
      (library.engine.compile? (toRegexText shape.toList)).isSome = true ∧
        Covers items name.toList := by
  cases hcompile : library.engine.compile? (toRegexText shape.toList) with
  | none => simp [Fits, hcompile]
  | some matcher =>
    have hmatcher := hengine _ _ _ (read_toRegexText hglob hspells) hcompile name.toList
    rw [fits_iff_of_compile hcompile, hmatcher,
      matches_pieces_iff (ne_lineFeed_of_isName hname)]
    simp

end Rows

/-- The glob `[!a-c_]*:x` covers `dy:x` and not `ay:x`, as its regular expression tells. -/
theorem accepts_iff_covers_of_negated_set :
    let text := "[!a-c_]*:x".toList
    let items : List Item := [.set true [.range 'a' 'c', .one '_'], .anyText, .char ':', .char 'x']
    isGlob true text = true ∧ Spells items text ∧
      Covers items "dy:x".toList ∧ ¬Covers items "ay:x".toList := by
  intro text items
  have hglob : isGlob true text = true := by decide
  have hspells : Spells items text := ⟨by decide, by decide⟩
  have hread : Regex.read (toRegexText text) = some
      [⟨.set ⟨true, [⟨'a', 'c'⟩, ⟨'_', '_'⟩], []⟩, false⟩, ⟨.any, true⟩, ⟨.char ':', false⟩,
        ⟨.char 'x', false⟩] := by decide +kernel
  obtain ⟨r, hr, hcovered⟩ := accepts_iff_covers hglob hspells
    (Or.inr (show isPropertyName "dy:x".toList = true by decide))
  obtain ⟨r', hr', hother⟩ := accepts_iff_covers hglob hspells
    (Or.inr (show isPropertyName "ay:x".toList = true by decide))
  rw [hread, Option.some.injEq] at hr hr'
  subst hr hr'
  exact ⟨hglob, hspells, hcovered.mp (by decide), fun h => absurd (hother.mpr h) (by decide)⟩

end Glob

end PathSets
