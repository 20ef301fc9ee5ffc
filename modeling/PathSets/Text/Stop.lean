import PathSets.Text.Size

/-!
# Where reading stops

A reader that meets a fault stops and hands back the text that it has not read
yet, beginning at the fault.  This fixes the place of the fault without any
counting, and a reader of a part can hand its stop to the reader of the whole
by adding the text that follows the part (`Stop.within`).  Only at the end is
the place turned into a byte offset (`Stop.toError`).
-/

namespace PathSets

/-- Kinds of faults that can be put into words. -/
class Fault (φ : Type) where
  message : φ → String

/-- Why reading stopped, and the text from there on. -/
structure Stop (φ : Type) where
  fault : φ
  rest : List Char
  deriving DecidableEq, Repr

/-- The result of a reader: what it has read, or a stop. -/
abbrev Reading (φ : Type) : Type → Type :=
  Except (Stop φ)

/-- A text that does not follow its grammar: the fault, its byte offset and the
text. -/
structure SyntaxError (φ : Type) where
  offset : Nat
  fault : φ
  input : String
  deriving DecidableEq, Repr

namespace Stop

variable {φ ψ : Type}

/-- The stop seen from a longer text, in which `after` follows the part that was
being read. -/
def within (name : φ → ψ) (after : List Char) (stop : Stop φ) : Stop ψ :=
  ⟨name stop.fault, stop.rest ++ after⟩

/-- The number of bytes of `text` before the stop. -/
def offset (text : List Char) (stop : Stop φ) : Nat :=
  utf8Size text - utf8Size stop.rest

/-- The stop as an error about the whole text. -/
def toError (text : String) (stop : Stop φ) : SyntaxError φ :=
  ⟨stop.offset text.toList, stop.fault, text⟩

end Stop

namespace SyntaxError

variable {φ ψ : Type}

/-- The same error with its fault seen as one of another kind. -/
def map (name : φ → ψ) (error : SyntaxError φ) : SyntaxError ψ :=
  ⟨error.offset, name error.fault, error.input⟩

/-- The error in words. -/
def message [Fault φ] (error : SyntaxError φ) : String :=
  s!"Syntax error at offset {error.offset}: {Fault.message error.fault}"

end SyntaxError

end PathSets
