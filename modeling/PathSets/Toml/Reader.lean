import PathSets.Toml.Literal
import PathSets.Toml.Value

/-!
# Reading TOML

A document is a sequence of lines: headers, array headers and pairs of a key and
a value, each perhaps followed by a comment.  All readers answer none for a text
that is not TOML; why it is not does not matter here.

Values nest by arrays and inline tables.  Both are read with a reader for the
values in them, so that `readNested` recurses on the number of brackets that may
still be opened.
-/

namespace PathSets.Toml

/-- Greatest number of arrays and inline tables that are open at once, and greatest
number of parts of a key. -/
def maxNesting : Nat := 80

/-! ## Blanks and comments -/

/-- Whether a character must not stand in a comment or string. -/
def isControl (c : Char) : Bool :=
  (c.toNat < 0x20 && c != '\t') || c.toNat == 0x7F

/-- What follows the spaces and tabs at the front. -/
def skipSpaces (text : List Char) : List Char :=
  text.dropWhile fun c => c == ' ' || c == '\t'

/-- What follows a line break. -/
def newline? : List Char → Option (List Char)
  | '\n' :: text => some text
  | '\r' :: '\n' :: text => some text
  | _ => none

/-- What follows a comment, which goes on to the end of its line. -/
def skipComment : List Char → List Char
  | '#' :: text => text.dropWhile (!isControl ·)
  | text => text

/-- What follows the end of a line with nothing but spaces and a comment on it. -/
def endLine? (text : List Char) : Option (List Char) :=
  match skipComment (skipSpaces text) with
  | [] => some []
  | rest => newline? rest

/-- What follows spaces, comments and line breaks.  There are at most as many lines
as `limit`, the length of the text. -/
def skipLines : (limit : Nat) → List Char → List Char
  | 0, text => text
  | limit + 1, text =>
    let text := skipComment (skipSpaces text)
    match newline? text with
    | some rest => skipLines limit rest
    | none => text

/-- What follows spaces, comments and line breaks. -/
def skipTrivia (text : List Char) : List Char :=
  skipLines text.length text

/-! ## Strings -/

/-- The character with a code point, if it is one. -/
def charOf? (code : Nat) : Option Char :=
  if code < 0xD800 ∨ (0xDFFF < code ∧ code < 0x110000) then some (Char.ofNat code) else none

/-- Reads a character given by `count` hexadecimal digits. -/
def readCode (count : Nat) (text : List Char) : Option (Char × List Char) :=
  let digits := text.take count
  if digits.length = count ∧ digits.all isHexDigit then
    (charOf? (digitsValue 16 digits)).map fun c => (c, text.drop count)
  else
    none

/-- Reads what follows a backslash. -/
def readEscape : List Char → Option (Char × List Char)
  | 'b' :: text => some ('\x08', text)
  | 't' :: text => some ('\t', text)
  | 'n' :: text => some ('\n', text)
  | 'f' :: text => some ('\x0c', text)
  | 'r' :: text => some ('\r', text)
  | 'e' :: text => some ('\x1b', text)
  | '"' :: text => some ('"', text)
  | '\\' :: text => some ('\\', text)
  | 'x' :: text => readCode 2 text
  | 'u' :: text => readCode 4 text
  | 'U' :: text => readCode 8 text
  | _ => none

/-- Reads a basic string after its opening quote.  It has at most `limit`
characters, the length of the text; so have the other strings below. -/
def readBasic : (limit : Nat) → List Char → Option (List Char × List Char)
  | _, '"' :: text => some ([], text)
  | 0, _ => none
  | _, [] => none
  | limit + 1, '\\' :: text => do
    let (c, text) ← readEscape text
    let (value, text) ← readBasic limit text
    return (c :: value, text)
  | limit + 1, c :: text =>
    if isControl c then none
    else do
      let (value, text) ← readBasic limit text
      return (c :: value, text)

/-- Reads a literal string after its opening quote. -/
def readRaw : List Char → Option (List Char × List Char)
  | [] => none
  | '\x27' :: text => some ([], text)
  | c :: text =>
    if isControl c then none
    else do
      let (value, text) ← readRaw text
      return (c :: value, text)

/-- The number of quotes at the front. -/
def countQuotes (quote : Char) (text : List Char) : Nat :=
  (text.takeWhile (· == quote)).length

/-- Reads the quotes at the end of a multi-line string: three close it, and up to two
before them belong to it. -/
def closeQuotes (quote : Char) (text : List Char) : Option (List Char × List Char) :=
  let count := min (countQuotes quote text) 5
  if count < 3 then none else some (List.replicate (count - 3) quote, text.drop count)

/-- What follows spaces, tabs and line breaks.  There are at most as many lines as
`limit`, the length of the text. -/
def skipBreaks : (limit : Nat) → List Char → List Char
  | 0, text => text
  | limit + 1, text =>
    let text := skipSpaces text
    match newline? text with
    | some rest => skipBreaks limit rest
    | none => text

/-- What follows a backslash at the end of a line in a multi-line string: the next
text that begins with neither a space nor a line break. -/
def skipLineEnd? (text : List Char) : Option (List Char) :=
  (newline? (skipSpaces text)).map fun rest => skipBreaks rest.length rest

/-- Reads a multi-line string after its opening quotes.  Escapes count if `escapes`
is set.  Line breaks stand for themselves, in the form in which they are written. -/
def readMultiline (quote : Char) (escapes : Bool) :
    (limit : Nat) → List Char → Option (List Char × List Char)
  | 0, _ => none
  | _, [] => none
  | limit + 1, c :: text =>
    if c = quote ∧ countQuotes quote (c :: text) ≥ 3 then closeQuotes quote (c :: text)
    else if escapes ∧ c = '\\' then
      match skipLineEnd? text with
      | some rest => readMultiline quote escapes limit rest
      | none => do
        let (d, rest) ← readEscape text
        let (value, rest) ← readMultiline quote escapes limit rest
        return (d :: value, rest)
    else if isControl c ∧ (newline? (c :: text)).isNone then none
    else do
      let (value, rest) ← readMultiline quote escapes limit text
      return (c :: value, rest)

/-- What follows a line break at the front, which a multi-line string drops. -/
def dropNewline (text : List Char) : List Char :=
  (newline? text).getD text

/-- Reads a string on one line. -/
def readLineString (text : List Char) : Option (List Char × List Char) :=
  match text with
  | '"' :: rest => readBasic rest.length rest
  | '\x27' :: rest => readRaw rest
  | _ => none

/-- Reads a string of any of the four kinds. -/
def readString (text : List Char) : Option (List Char × List Char) :=
  match text with
  | '"' :: '"' :: '"' :: rest => readMultiline '"' true rest.length (dropNewline rest)
  | '\x27' :: '\x27' :: '\x27' :: rest => readMultiline '\x27' false rest.length (dropNewline rest)
  | text => readLineString text

/-! ## Keys -/

/-- Whether a character may stand in a key without quotes. -/
def isBareKeyChar (c : Char) : Bool :=
  c.isAlphanum || c == '_' || c == '-'

/-- Reads one part of a key. -/
def readKeyPart (text : List Char) : Option (String × List Char) :=
  match text with
  | '"' :: _ | '\x27' :: _ =>
    (readLineString text).map fun (key, rest) => (String.ofList key, rest)
  | _ =>
    let key := text.takeWhile isBareKeyChar
    if key.isEmpty then none else some (String.ofList key, text.dropWhile isBareKeyChar)

/-- Reads parts of a key joined with dots, at most as many as `limit`, the length of
the text. -/
def readKeyParts : (limit : Nat) → List Char → Option (List String × List Char)
  | 0, _ => none
  | limit + 1, text => do
    let (part, rest) ← readKeyPart (skipSpaces text)
    match skipSpaces rest with
    | '.' :: rest =>
      let (parts, rest) ← readKeyParts limit rest
      return (part :: parts, rest)
    | rest => return ([part], rest)

/-- Reads a key, which has at most `maxNesting` parts. -/
def readKey (text : List Char) : Option (List String × List Char) :=
  (readKeyParts text.length text).filter fun (parts, _) => parts.length ≤ maxNesting

/-! ## Values -/

/-- Whether a character may stand in a Boolean, a number or a date. -/
def isWordChar (c : Char) : Bool :=
  c.isAlphanum || c == '+' || c == '-' || c == '.' || c == '_' || c == ':'

/-- Reads the word at the front of a text.  A date takes the time after one space
along. -/
def readWord (text : List Char) : List Char × List Char :=
  let word := text.takeWhile isWordChar
  let rest := text.dropWhile isWordChar
  match rest with
  | ' ' :: more =>
    if afterDate? word = some [] ∧ more.head?.any Char.isDigit then
      (word ++ ' ' :: more.takeWhile isWordChar, more.dropWhile isWordChar)
    else
      (word, rest)
  | _ => (word, rest)

/-- Reads a Boolean, a number or a date. -/
def readScalar (text : List Char) : Option (Value × List Char) :=
  let (word, rest) := readWord text
  if word = "true".toList then some (.boolean true, rest)
  else if word = "false".toList then some (.boolean false, rest)
  else if isNumber word then some (.number (String.ofList word), rest)
  else if isDateTime word then some (.date (String.ofList word), rest)
  else none

/-- Reads the items of an array up to its closing bracket, at most as many as
`limit`, the length of the text.  A comma may follow the last item. -/
def readItems (read : List Char → Option (Value × List Char)) :
    (limit : Nat) → List Char → Option (List Value × List Char)
  | 0, _ => none
  | limit + 1, text =>
    match skipTrivia text with
    | ']' :: rest => some ([], rest)
    | text => do
      let (item, rest) ← read text
      match skipTrivia rest with
      | ',' :: rest =>
        let (items, rest) ← readItems read limit rest
        return (item :: items, rest)
      | ']' :: rest => return ([item], rest)
      | _ => none

/-- Reads a key, an equals sign and a value. -/
def readPair (read : List Char → Option (Value × List Char)) (text : List Char) :
    Option ((List String × Value) × List Char) := do
  let (key, rest) ← readKey text
  let '=' :: rest := rest | none
  let (value, rest) ← read (skipSpaces rest)
  return ((key, value), rest)

/-- Reads the pairs of an inline table up to its closing brace, at most as many as
`limit`, the length of the text.  A comma may follow the last pair. -/
def readPairs (read : List Char → Option (Value × List Char)) :
    (limit : Nat) → Table → List Char → Option (Table × List Char)
  | 0, _, _ => none
  | limit + 1, table, text =>
    match skipTrivia text with
    | '}' :: rest => some (table, rest)
    | text => do
      let ((key, value), rest) ← readPair read text
      let table ← table.insert? key value
      match skipTrivia rest with
      | ',' :: rest => readPairs read limit table rest
      | '}' :: rest => return (table, rest)
      | _ => none

/-- Reads a value.  What is in arrays and inline tables is read with `inner`, and
without it they may not be opened. -/
def readValue (inner : Option (List Char → Option (Value × List Char))) (text : List Char) :
    Option (Value × List Char) :=
  match text with
  | '"' :: _ | '\x27' :: _ =>
    (readString text).map fun (value, rest) => (.string (String.ofList value), rest)
  | '[' :: rest => do
    let (items, rest) ← readItems (← inner) text.length rest
    return (.array items, rest)
  | '\x7b' :: rest => do
    let (table, rest) ← readPairs (← inner) text.length [] rest
    return (.table .inline table, rest)
  | _ => readScalar text

/-- Reads a value in which at most `nesting` brackets are open at once. -/
def readNested : (nesting : Nat) → List Char → Option (Value × List Char)
  | 0 => readValue none
  | nesting + 1 => readValue (some (readNested nesting))

/-! ## Documents -/

/-- A document that has been read so far, and the header under which it goes on. -/
structure Draft where
  table : Table := []
  header : List String := []

namespace Draft

/-- Adds a pair under the current header. -/
def insert? (draft : Draft) (key : List String) (value : Value) : Option Draft := do
  let table ← draft.table.at? false (·.insert? key value) draft.header
  return { draft with table }

/-- Reads one line that is not blank: an array header, a header or a pair. -/
def readLine (draft : Draft) (text : List Char) : Option (Draft × List Char) :=
  match text with
  | '[' :: '[' :: rest => do
    let (key, rest) ← readKey rest
    let ']' :: ']' :: rest := rest | none
    return (⟨← draft.table.addElement? key, key⟩, ← endLine? rest)
  | '[' :: rest => do
    let (key, rest) ← readKey rest
    let ']' :: rest := rest | none
    return (⟨← draft.table.addHeader? key, key⟩, ← endLine? rest)
  | text => do
    let ((key, value), rest) ← readPair (readNested maxNesting) text
    return (← draft.insert? key value, ← endLine? rest)

/-- Reads lines to the end of the text, of which there are at most as many as
`limit`, the length of the text. -/
def readLines : (limit : Nat) → Draft → List Char → Option Table
  | 0, draft, text => if text.isEmpty then some draft.table else none
  | limit + 1, draft, text =>
    match skipTrivia text with
    | [] => some draft.table
    | text => do
      let (draft, rest) ← draft.readLine text
      readLines limit draft rest

end Draft

/-- Drops a byte order mark at the front. -/
def dropMark : List Char → List Char
  | '\uFEFF' :: text => text
  | text => text

/-- The table that a text spells. -/
def read (text : List Char) : Option Table :=
  Draft.readLines text.length {} (dropMark text)

/-- The table that a text spells; none if it is not TOML. -/
def parse? (text : String) : Option Table :=
  read text.toList

end PathSets.Toml
