/-!
# Sizes in bytes

Texts are read as lists of characters, but places in them are reported as byte
offsets of their UTF-8 encoding.  `utf8Size` measures a text, and the size of
what stands before a place is that place's offset.
-/

namespace PathSets

/-- The number of bytes in the UTF-8 encoding of a text. -/
def utf8Size : List Char → Nat
  | [] => 0
  | c :: text => c.utf8Size + utf8Size text

@[simp] theorem utf8Size_nil : utf8Size [] = 0 := rfl

@[simp] theorem utf8Size_cons (c : Char) (text : List Char) :
    utf8Size (c :: text) = c.utf8Size + utf8Size text := rfl

@[simp] theorem utf8Size_append (front back : List Char) :
    utf8Size (front ++ back) = utf8Size front + utf8Size back := by
  induction front with
  | nil => simp
  | cons c front ih => rw [List.cons_append, utf8Size_cons, utf8Size_cons, ih, Nat.add_assoc]

end PathSets
