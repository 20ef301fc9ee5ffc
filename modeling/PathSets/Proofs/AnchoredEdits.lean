import PathSets.Proofs.Relocation

/-!
# Anchoring and growing paths

A relative path may grow before it is anchored or after, which makes no difference: the
results are the same path, or there is none either way (`Path.anchorAt_comm_of_parse`).

Before, `..` takes away the last name of the path or is put behind its other `..` elements.
After, it takes away a name in any case, one of the path or one of the anchor, and where the
root is reached there is none to take.  Following the prims one by one from the anchor
(`descend_append`) comes to the same place.
-/

namespace PathSets.Path

variable {p q anchor : Path} {name : String} {prims : List String}

/-! ## Following prims -/

/-- Prims are followed one part after the other. -/
theorem descend_append (start front back : List String) :
    descend start (front ++ back) = (descend start front).bind (descend · back) := by
  induction front generalizing start with
  | nil => rfl
  | cons name names ih =>
    rw [List.cons_append, descend, descend]
    split
    · split
      · rfl
      · exact ih _
    · exact ih _

theorem descend_upElement (start : List String) :
    descend start [upElement] = if start = [] then none else some start.dropLast := by
  simp [descend]

theorem descend_name (hname : name ≠ upElement) (start : List String) :
    descend start [name] = some (start ++ [name]) := by
  simp [descend, hname]

/-- The absolute path of some prims. -/
def absolute (prims : List String) : Path :=
  { anchor := .absolute, prims }

/-- A relative path without property leads where its prims lead from those of the anchor. -/
theorem anchorAt_of_relative (hrelative : p.anchor = .relative) (hproperty : p.property = none)
    (hanchor : anchor.isAnchor = true) (prims : List String) :
    (anchorAt { p with prims } anchor).toOption = (descend anchor.prims prims).map absolute := by
  rw [Path.anchorAt, if_neg (by simp [hrelative]), if_neg (by simp [hanchor])]
  cases descend anchor.prims prims with
  | none => rfl
  | some found =>
    dsimp only
    rw [if_neg (by simp [isProperty, hproperty]), hproperty]
    rfl

/-- A property of a relative path stays a property, but the root has none. -/
theorem anchorAt_of_relative_property (hrelative : p.anchor = .relative)
    (hanchor : anchor.isAnchor = true) :
    (anchorAt { p with property := some name } anchor).toOption =
      (descend anchor.prims p.prims).bind fun prims =>
        if prims = [] then none else some { absolute prims with property := some name } := by
  rw [Path.anchorAt, if_neg (by simp [hrelative]), if_neg (by simp [hanchor])]
  cases descend anchor.prims p.prims with
  | none => rfl
  | some prims =>
    by_cases hprims : prims = []
    · simp [hprims, isProperty, Except.toOption]
    · simp [hprims, isProperty, Except.toOption, absolute]

/-! ## Growing absolute paths -/

/-- Names end in a name, if there are any. -/
theorem getLast?_any_of_isIdentifier (hprims : ∀ prim ∈ prims, isIdentifier prim.toList = true) :
    prims.getLast?.any (· != upElement) = !prims.isEmpty := by
  cases hlast : prims.getLast? with
  | none =>
    obtain rfl : prims = [] := by simpa using hlast
    rfl
  | some last =>
    have hmem : last ∈ prims := List.mem_of_getLast? hlast
    have hne : last ≠ upElement := ne_upElement_of_isIdentifier (hprims last hmem)
    rw [List.isEmpty_eq_false_iff.mpr (List.ne_nil_of_mem hmem)]
    simpa using hne

/-- Going up from an absolute path takes its last prim away, if there is one. -/
theorem child_upElement_absolute (hprims : ∀ prim ∈ prims, isIdentifier prim.toList = true) :
    ((absolute prims).child upElement).toOption =
      if prims = [] then none else some (absolute prims.dropLast) := by
  have hlast : (absolute prims).prims.getLast?.any (· != upElement) = !prims.isEmpty :=
    getLast?_any_of_isIdentifier hprims
  rw [child, if_neg (by simp [absolute, isEmpty]), if_neg (by simp [absolute, isProperty]),
    if_pos (by simp), hlast]
  by_cases hnil : prims = [] <;> simp [hnil, absolute, Except.toOption]

theorem child_absolute (hname : isIdentifier name.toList = true) (prims : List String) :
    ((absolute prims).child name).toOption = some (absolute (prims ++ [name])) := by
  have hup : name ≠ upElement := ne_upElement_of_isIdentifier hname
  simp [child, absolute, isEmpty, isProperty, hup, hname, Except.toOption]

/-- Every absolute path of names takes a property, but for the root. -/
theorem withProperty_absolute (hprims : ∀ prim ∈ prims, isIdentifier prim.toList = true)
    (hname : isPropertyName name.toList = true) :
    ((absolute prims).withProperty name).toOption =
      if prims = [] then none else some { absolute prims with property := some name } := by
  have hhere : (absolute prims).isHere = false := rfl
  have hprim : (absolute prims).isPrim = !prims.isEmpty := getLast?_any_of_isIdentifier hprims
  rw [withProperty, hhere, hprim]
  by_cases hnil : prims = [] <;> simp [hnil, hname, Except.toOption]

/-! ## Growing before or after -/

section Growing

variable (hp : p.WellFormed) (ha : anchor.WellFormed) (hrelative : p.anchor = .relative)
  (hanchor : anchor.isAnchor = true)

include hp ha hanchor

/-- From an absolute path of names a well-formed path leads to such a path. -/
theorem WellFormed.isIdentifier_of_descend (h : descend anchor.prims p.prims = some prims) :
    ∀ prim ∈ prims, isIdentifier prim.toList = true :=
  Path.isIdentifier_of_descend (ha.names_of_isAnchor hanchor) hp.prims.eq_or_isIdentifier h

include hrelative

/-- Going to a child and anchoring may change places. -/
theorem WellFormed.anchorAt_child (h : p.child name = .ok q) :
    (q.anchorAt anchor).toOption = (p.anchorAt anchor >>= (·.child name)).toOption := by
  obtain ⟨-, hproperty, hcases⟩ := child_cases h
  have hmoved : ∀ prims, (Path.anchorAt { p with prims } anchor).toOption =
      (descend anchor.prims prims).map absolute :=
    anchorAt_of_relative hrelative hproperty hanchor
  have hstay : (p.anchorAt anchor).toOption = (descend anchor.prims p.prims).map absolute :=
    hmoved p.prims
  rw [toOption_bind, hstay]
  obtain ⟨rfl, hlast, rfl⟩ | ⟨rfl, -, -, rfl⟩ | ⟨hname, rfl⟩ := hcases
  · -- The name that goes is the last one followed from the anchor.
    obtain ⟨front, last, hprims⟩ : ∃ front last, p.prims = front ++ [last] := by
      refine ⟨_, _, (List.dropLast_concat_getLast ?_).symm⟩
      rintro hnil
      simp [hnil] at hlast
    have hup : last ≠ upElement := by simpa [hprims] using hlast
    have hfollow : descend anchor.prims p.prims =
        (descend anchor.prims front).map (· ++ [last]) := by
      rw [hprims, descend_append]
      cases descend anchor.prims front <;> simp [descend_name hup]
    rw [hmoved, hfollow]
    cases hfront : descend anchor.prims front with
    | none => simp [hprims, hfront]
    | some prims =>
      have hnames := hp.isIdentifier_of_descend ha hanchor (by rw [hfollow, hfront]; rfl)
      simp [hprims, hfront, child_upElement_absolute hnames]
  · rw [hmoved, descend_append]
    cases hfollow : descend anchor.prims p.prims with
    | none => rfl
    | some prims =>
      have hnames := hp.isIdentifier_of_descend ha hanchor hfollow
      simp only [Option.bind_some, Option.map_some, descend_upElement,
        child_upElement_absolute hnames]
      split <;> rfl
  · have hup : name ≠ upElement := ne_upElement_of_isIdentifier hname
    rw [hmoved, descend_append]
    cases descend anchor.prims p.prims with
    | none => rfl
    | some prims => simp [descend_name hup, child_absolute hname]

/-- Going to a property and anchoring may change places. -/
theorem WellFormed.anchorAt_withProperty (h : p.withProperty name = .ok q) :
    (q.anchorAt anchor).toOption = (p.anchorAt anchor >>= (·.withProperty name)).toOption := by
  obtain ⟨hkind, hname, rfl⟩ := withProperty_cases h
  have hproperty : p.property = none := by
    rcases hkind with hkind | hkind
    · exact (by simpa [isPrim, isProperty] using hkind : p.property = none ∧ _).1
    · exact (by simpa [isHere, isProperty] using hkind : _ ∧ p.property = none).2
  have hstay : (p.anchorAt anchor).toOption = (descend anchor.prims p.prims).map absolute :=
    anchorAt_of_relative hrelative hproperty hanchor p.prims
  rw [toOption_bind, hstay, anchorAt_of_relative_property hrelative hanchor]
  cases hfollow : descend anchor.prims p.prims with
  | none => rfl
  | some prims =>
    have hnames := hp.isIdentifier_of_descend ha hanchor hfollow
    exact (withProperty_absolute hnames hname).symm

end Growing

/-- A relative path that has been read, seen from an absolute prim path that has been read:
where the path has a child of some name, anchoring the child gives what the child of the
anchored path is, and neither exists without the other.  The same holds of properties. -/
theorem anchorAt_comm_of_parse {text anchorText : String} (hp : parse text = .ok p)
    (hrelative : p.anchor = .relative) (ha : parse anchorText = .ok anchor)
    (hanchor : anchor.isAnchor = true) (name : String) :
    (∀ q, p.child name = .ok q →
        (q.anchorAt anchor).toOption = (p.anchorAt anchor >>= (·.child name)).toOption) ∧
      ∀ q, p.withProperty name = .ok q →
        (q.anchorAt anchor).toOption = (p.anchorAt anchor >>= (·.withProperty name)).toOption :=
  have hp' := wellFormed_of_parse hp
  have ha' := wellFormed_of_parse ha
  ⟨fun _ h => hp'.anchorAt_child ha' hrelative hanchor h,
    fun _ h => hp'.anchorAt_withProperty ha' hrelative hanchor h⟩

/-- Going up from `.` as seen from `/w` leads to the root, before the path is anchored or
after, and a property of `.` is one of `/w`. -/
theorem anchorAt_comm_of_parse_here :
    let up : Path := { anchor := .relative, prims := [".."] }
    let property : Path := { anchor := .relative, property := some "x:y" }
    let anchor : Path := { anchor := .absolute, prims := ["w"] }
    (parse "." = .ok here ∧ here.anchor = .relative ∧ parse "/w" = .ok anchor ∧
        anchor.isAnchor = true) ∧
      (here.child ".." = .ok up ∧
        (up.anchorAt anchor).toOption = (here.anchorAt anchor >>= (·.child "..")).toOption ∧
        (up.anchorAt anchor).toOption = some root) ∧
      here.withProperty "x:y" = .ok property ∧
      (property.anchorAt anchor).toOption =
        (here.anchorAt anchor >>= (·.withProperty "x:y")).toOption ∧
      (property.anchorAt anchor).toOption = some { anchor with property := some "x:y" } := by
  intro up property anchor
  have hp : parse "." = .ok here := by decide +kernel
  have ha : parse "/w" = .ok anchor := by decide +kernel
  have hup : here.child ".." = .ok up := by decide
  have hproperty : here.withProperty "x:y" = .ok property := by decide +kernel
  exact ⟨⟨hp, rfl, ha, rfl⟩,
    ⟨hup, (anchorAt_comm_of_parse hp rfl ha rfl "..").1 up hup, by decide⟩,
    hproperty, (anchorAt_comm_of_parse hp rfl ha rfl "x:y").2 property hproperty, by decide⟩

end PathSets.Path
