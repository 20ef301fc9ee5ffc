/-!
# TOML numbers and dates

A value that is no string, array or table is a word: a Boolean, an integer, a
float, a date, a time of day, or a date with a time.  The words are recognised
here by their characters.

Underscores may stand between digits, a decimal number has no leading zero, and
the parts of a date lie within the calendar.  Integers need at most 128 bits, and
floats must not be too large for a binary64.
-/

namespace PathSets.Toml

/-- The digits of a number without the underscores between them; none if an
underscore does not stand between two digits. -/
def plainDigits? (isDigit : Char → Bool) : List Char → Option (List Char)
  | [] => none
  | [c] => if isDigit c then some [c] else none
  | c :: '_' :: d :: text =>
    if isDigit c && isDigit d then (plainDigits? isDigit (d :: text)).map (c :: ·) else none
  | c :: text => if isDigit c then (plainDigits? isDigit text).map (c :: ·) else none

/-- Takes one sign off a word. -/
def splitSign : List Char → Option Bool × List Char
  | '+' :: text => (some false, text)
  | '-' :: text => (some true, text)
  | text => (none, text)

/-- The digits of a decimal number: one zero, or no leading zero. -/
def decimal? (text : List Char) : Option (List Char) := do
  let digits ← plainDigits? Char.isDigit text
  if digits.length > 1 ∧ digits.head? = some '0' then none else some digits

/-! ## Integers -/

def isHexDigit (c : Char) : Bool :=
  c.isDigit || ('a' ≤ c && c ≤ 'f') || ('A' ≤ c && c ≤ 'F')

/-- The value of a hexadecimal digit. -/
def hexDigitValue (c : Char) : Nat :=
  if c.isDigit then c.toNat - '0'.toNat
  else if 'a' ≤ c then c.toNat - 'a'.toNat + 10
  else c.toNat - 'A'.toNat + 10

/-- The number that digits of the given base spell. -/
def digitsValue (base : Nat) (digits : List Char) : Nat :=
  digits.foldl (fun n c => n * base + hexDigitValue c) 0

/-- The value of an integer word. -/
def integer? (text : List Char) : Option Int :=
  match text with
  | '0' :: 'x' :: digits => (plainDigits? isHexDigit digits).map fun ds => digitsValue 16 ds
  | '0' :: 'o' :: digits =>
    (plainDigits? (fun c => '0' ≤ c && c ≤ '7') digits).map fun ds => digitsValue 8 ds
  | '0' :: 'b' :: digits =>
    (plainDigits? (fun c => c == '0' || c == '1') digits).map fun ds => digitsValue 2 ds
  | text =>
    let (sign, digits) := splitSign text
    (decimal? digits).map fun ds =>
      if sign = some true then -(digitsValue 10 ds : Int) else digitsValue 10 ds

/-- Whether a word is an integer of at most 128 bits. -/
def isInteger (text : List Char) : Bool :=
  (integer? text).any fun n =>
    if n < 0 then n.natAbs ≤ Nat.pow 2 127 else n.natAbs < Nat.pow 2 128

/-! ## Floats -/

/-- The least magnitude that rounds to infinity as a binary64. -/
def floatBound : Nat := Nat.pow 2 1024 - Nat.pow 2 970

/-- Whether `digits · 10 ^ scale` is too large for a binary64. -/
def overflows (digits : List Char) (scale : Int) : Bool :=
  let n := digitsValue 10 digits
  if n = 0 then false
  else if scale > 400 then true
  else if scale ≥ 0 then n * Nat.pow 10 scale.toNat ≥ floatBound
  else if digits.length ≤ (-scale).toNat then false
  else n ≥ floatBound * Nat.pow 10 (-scale).toNat

/-- The value of an exponent, whose digits may have leading zeros. -/
def exponent? (text : List Char) : Option Int :=
  let (sign, digits) := splitSign text
  (plainDigits? Char.isDigit digits).map fun ds =>
    if sign = some true then -(digitsValue 10 ds : Int) else digitsValue 10 ds

/-- Whether a word is a float: with a fraction, an exponent or both, or one of the
words `inf` and `nan`. -/
def isFloat (text : List Char) : Bool :=
  let (_, text) := splitSign text
  if text = "inf".toList ∨ text = "nan".toList then true
  else
    let isMark := fun c : Char => c == 'e' || c == 'E'
    let mantissa := text.takeWhile (!isMark ·)
    let whole := mantissa.takeWhile (· != '.')
    let fraction? : Option (List Char) :=
      match mantissa.dropWhile (· != '.') with
      | [] => some []
      | _ :: digits => plainDigits? Char.isDigit digits
    let exponent?? : Option Int :=
      match text.dropWhile (!isMark ·) with
      | [] => some 0
      | _ :: digits => exponent? digits
    match decimal? whole, fraction?, exponent?? with
    | some whole, some fraction, some exponent =>
      text.any (fun c => c == '.' || isMark c) &&
        !overflows (whole ++ fraction) (exponent - fraction.length)
    | _, _, _ => false

/-- Whether a word is a number. -/
def isNumber (text : List Char) : Bool :=
  isInteger text || isFloat text

/-! ## Dates and times -/

/-- Reads two digits. -/
def twoDigits? : List Char → Option (Nat × List Char)
  | c :: d :: text =>
    if c.isDigit && d.isDigit then some (digitsValue 10 [c, d], text) else none
  | _ => none

/-- The number of days of a month. -/
def daysInMonth (year month : Nat) : Nat :=
  if month = 2 then
    if year % 4 = 0 ∧ (year % 100 ≠ 0 ∨ year % 400 = 0) then 29 else 28
  else if month = 4 ∨ month = 6 ∨ month = 9 ∨ month = 11 then 30
  else 31

/-- What follows a date, `YYYY-MM-DD`. -/
def afterDate? (text : List Char) : Option (List Char) := do
  let (century, text) ← twoDigits? text
  let (year, text) ← twoDigits? text
  let '-' :: text := text | none
  let (month, text) ← twoDigits? text
  let '-' :: text := text | none
  let (day, text) ← twoDigits? text
  if 1 ≤ month ∧ month ≤ 12 ∧ 1 ≤ day ∧ day ≤ daysInMonth (100 * century + year) month then
    some text
  else
    none

/-- What follows hours and minutes, `HH:MM`. -/
def afterMinutes? (text : List Char) : Option (List Char) := do
  let (hour, text) ← twoDigits? text
  let ':' :: text := text | none
  let (minute, text) ← twoDigits? text
  if hour ≤ 23 ∧ minute ≤ 59 then some text else none

/-- What follows a time of day.  Seconds may be left out and may have a fraction. -/
def afterTime? (text : List Char) : Option (List Char) := do
  let text ← afterMinutes? text
  match text with
  | ':' :: text =>
    let (second, text) ← twoDigits? text
    if second > 60 then none
    else
      match text with
      | '.' :: text =>
        if text.head?.any Char.isDigit then some (text.dropWhile Char.isDigit) else none
      | text => some text
  | text => some text

/-- Whether a text is empty or the offset of a time from UTC. -/
def isOffset (text : List Char) : Bool :=
  match text with
  | [] => true
  | ['Z'] => true
  | ['z'] => true
  | '+' :: text => afterMinutes? text = some []
  | '-' :: text => afterMinutes? text = some []
  | _ => false

/-- Whether a word is a date, a time of day, or a date with a time. -/
def isDateTime (text : List Char) : Bool :=
  match afterDate? text with
  | some [] => true
  | some (c :: rest) =>
    (c == 'T' || c == 't' || c == ' ') && (afterTime? rest).any isOffset
  | none => afterTime? text = some []

end PathSets.Toml
