import PathSets.Path.Order

/-!
# Names as bytes

Paths are ordered by code points.  UTF-8 is made so that the bytes of a text say the same:
of two characters the larger one has the larger encoding, because it has a larger leading
byte or as many bytes with larger bits (`compare_utf8EncodeChar`).  So comparing two names is
comparing their encodings byte by byte (`compare_nameBytes`), and the order of paths is one of
byte strings (`Path.compare_eq_bytes`).
-/

namespace PathSets

open Std

/-! ## Characters -/

section Characters

variable {v w : Nat} {c d : Char} {text other : List UInt8}

/-- Byte strings are compared by their first byte, and by what follows if it is the same. -/
theorem compare_ofNat_cons (hv : v < 256) (hw : w < 256) :
    compare (UInt8.ofNat v :: text) (UInt8.ofNat w :: other) = .lt ↔
      v < w ∨ v = w ∧ compare text other = .lt := by
  rw [List.compare_cons_cons, Ordering.then_eq_lt, compare_eq_lt,
    LawfulEqCmp.compare_eq_iff_eq, UInt8.lt_iff_toNat_lt, ← UInt8.toNat_inj,
    UInt8.toNat_ofNat_of_lt' hv, UInt8.toNat_ofNat_of_lt' hw]

theorem toNat_lt_of_char (c : Char) : c.val.toNat < 0x110000 := by
  rcases c.valid with h | h
  · exact Nat.lt_trans h (by decide)
  · exact h.2

/-- The larger of two characters has the larger encoding, whatever follows. -/
theorem compare_utf8EncodeChar (h : c < d) :
    compare (String.utf8EncodeChar c ++ text) (String.utf8EncodeChar d ++ other) = .lt := by
  have hd := toNat_lt_of_char d
  have hlt : c.val.toNat < d.val.toNat := h
  rw [String.utf8EncodeChar.eq_def c, String.utf8EncodeChar.eq_def d]
  dsimp only
  generalize c.val.toNat = v at *
  generalize d.val.toNat = w at *
  -- The leading byte of the longest encodings has room for all their bits.
  have htop : ∀ n < 0x110000, n / 64 / 64 / 64 % 8 = n / 64 / 64 / 64 := by omega
  have hv := htop v (by omega)
  have hw := htop w hd
  have hdigits : ∀ n, n / 4096 = n / 64 / 64 ∧ n / 262144 = n / 64 / 64 / 64 := by omega
  simp only [hdigits]
  -- By the lengths of both encodings, of which the second is not the shorter one.
  repeat' split
  all_goals
    simp (disch := omega) only [List.cons_append, compare_ofNat_cons]
    omega

end Characters

/-! ## Names -/

/-- The bytes of a name. -/
def nameBytes (name : String) : List UInt8 :=
  name.toUTF8.data.toList

theorem nameBytes_eq (name : String) :
    nameBytes name = name.toList.flatMap String.utf8EncodeChar := by
  rw [nameBytes, ← String.ofList_toList (s := name), String.toUTF8, String.toByteArray_ofList,
    String.toList_ofList, List.utf8Encode, List.data_toByteArray]

theorem utf8EncodeChar_ne_nil (c : Char) : String.utf8EncodeChar c ≠ [] := by
  rw [← List.length_pos_iff, String.length_utf8EncodeChar]
  exact c.utf8Size_pos

/-- The same bytes at the front decide nothing. -/
theorem compare_append_left (front text other : List UInt8) :
    compare (front ++ text) (front ++ other) = compare text other := by
  induction front with
  | nil => rfl
  | cons b front ih =>
    have hb : compare b b = .eq := ReflCmp.compare_self
    rw [List.cons_append, List.cons_append, List.compare_cons_cons, hb, Ordering.eq_then, ih]

theorem compare_flatMap_of_lt {text other : List Char} (h : text < other) :
    compare (text.flatMap String.utf8EncodeChar) (other.flatMap String.utf8EncodeChar) = .lt := by
  induction text generalizing other with
  | nil =>
    cases other with
    | nil => exact absurd h (by simp)
    | cons d other =>
      rw [List.flatMap_cons]
      obtain ⟨b, more, hb⟩ := List.exists_cons_of_ne_nil (utf8EncodeChar_ne_nil d)
      rw [hb]
      rfl
  | cons c text ih =>
    cases other with
    | nil => exact absurd h (by simp)
    | cons d other =>
      rw [List.flatMap_cons, List.flatMap_cons]
      rcases List.cons_lt_cons_iff.mp h with hlt | ⟨rfl, hlt⟩
      · exact compare_utf8EncodeChar hlt
      · rw [compare_append_left]
        exact ih hlt

/-- Names are compared byte by byte. -/
theorem compare_nameBytes (name other : String) :
    compare (nameBytes name) (nameBytes other) = compare name other := by
  have hlt : ∀ name other : String, compare name other = .lt →
      compare (nameBytes name) (nameBytes other) = .lt := by
    intro name other h
    have h' : name < other := (compareOfLessAndEq_eq_lt (x := name)).mp h
    rw [nameBytes_eq, nameBytes_eq]
    exact compare_flatMap_of_lt (String.lt_iff.mp h')
  cases h : compare name other with
  | lt => exact hlt name other h
  | eq =>
    obtain rfl := LawfulEqCmp.eq_of_compare h
    exact ReflCmp.compare_self
  | gt =>
    rw [OrientedCmp.gt_iff_lt] at h ⊢
    exact hlt other name h

end PathSets
