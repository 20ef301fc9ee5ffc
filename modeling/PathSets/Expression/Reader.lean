import PathSets.Expression.Text
import PathSets.Expression.Token
import PathSets.Pattern.Reader

/-!
# Reading expressions

An expression is read from its tokens by levels, loosest first: union,
juxtaposition, difference, intersection, complement, and then a pattern, a
reference or an expression in parentheses.  Each operator takes operands of the
next tighter level and groups to the left (`chain`).  Complement signs cancel in
pairs.  The results are combined with the operations that keep trees canonical,
so the tree may be smaller than the text.

The depth that is checked against `maxDepth` is therefore that of the text: each
operator adds one to its deeper operand, and a whole run of unions adds one to
its deepest.  No more than `maxDepth` parentheses are open at any place, by
construction of `readNested`.
-/

namespace PathSets

/-- Why a text is no expression. -/
inductive ExpressionFault where
  | unterminated (opening : Char)
  | unexpected (token : String)
  | unexpectedEnd
  | expectedClose
  | expectedOperand
  | tooDeep
  | reference
  | referencePath
  | referenceName
  | pattern (fault : PatternFault)
  deriving DecidableEq, Repr

instance : Fault ExpressionFault where
  message
    | .unterminated opening => s!"unterminated '{opening}'"
    | .unexpected token => s!"unexpected '{token}'"
    | .unexpectedEnd => "unexpected end of expression"
    | .expectedClose => "expected ')'"
    | .expectedOperand => "expected a pattern, a reference or '('"
    | .tooDeep => "expression nested too deeply"
    | .reference => "expected '%_' or '%:name' reference"
    | .referencePath => "invalid reference path"
    | .referenceName => "invalid reference name"
    | .pattern fault => Fault.message fault

/-- A fault among the tokens of a text, with its byte offset; none is the end of
the text. -/
structure Misplaced where
  offset? : Option Nat
  fault : ExpressionFault
  deriving DecidableEq, Repr

namespace Misplaced

/-- A fault at the first of the remaining tokens. -/
def atHead (tokens : List Token) (fault : ExpressionFault) : Misplaced :=
  ⟨tokens.head?.map (·.offset), fault⟩

/-- A fault within a token. -/
def inToken (token : Token) (stop : Stop ExpressionFault) : Misplaced :=
  ⟨some (token.offset + stop.offset token.chars), stop.fault⟩

end Misplaced

/-! ## Leaves -/

/-- Reads a reference: `%_`, or `%`, a path, a colon and a name. -/
def Reference.read (text : List Char) : Reading ExpressionFault Reference :=
  let body := text.tail
  if body = weakerName.toList then .ok .weaker
  else
    match body.dropWhile (· != ':') with
    | [] => .error ⟨.reference, text⟩
    | _ :: name =>
      match Path.read (body.takeWhile (· != ':')) with
      | .error _ => .error ⟨.referencePath, body⟩
      | .ok path =>
        if path.isProperty then .error ⟨.referencePath, body⟩
        else if isIdentifier name then .ok { path, name := String.ofList name }
        else .error ⟨.referenceName, name⟩

namespace Expression

/-- An expression that has been read, and the depth of its text. -/
structure Parsed where
  value : Expression
  depth : Nat

/-- Reads a leaf from a pattern or reference token. -/
def readLeaf (token : Token) : Except Misplaced Leaf :=
  match token.kind with
  | .pattern =>
    match Pattern.read token.chars with
    | .ok p => .ok (.pattern p)
    | .error stop => .error (.inToken token (stop.within .pattern []))
  | _ =>
    match Reference.read token.chars with
    | .ok r => .ok (.reference r)
    | .error stop => .error (.inToken token stop)

end Expression

/-! ## Levels -/

namespace Operator

/-- Whether a token can begin an operand. -/
def beginsOperand (token : Token) : Bool :=
  match token.kind with
  | .pattern | .reference | .openParen | .complement => true
  | _ => false

/-- Whether a token continues a chain of this operator. -/
def continuesAt (op : Operator) (token : Token) : Bool :=
  match op with
  | .union => token.kind == .union
  | .juxtaposition => beginsOperand token
  | .difference => token.kind == .difference
  | .intersection => token.kind == .intersection

/-- The token that continues a chain of this operator, if it comes next, and the
tokens from the right operand on.  Juxtaposition has no token of its own. -/
def joint? (op : Operator) : List Token → Option (Token × List Token)
  | [] => none
  | token :: tokens =>
    if op.continuesAt token then
      some (token, if op = .juxtaposition then token :: tokens else tokens)
    else
      none

end Operator

section Readers

variable {m : Type → Type} [Monad m] [Walk Misplaced m]

namespace Expression

/-- Reads on from what has been read for as long as the operator comes.  `deepest`
is the depth that the next operator adds one to: for a union that of the deepest
operand, for the others that of everything read so far. -/
def chain (op : Operator) (operand : List Token → m (Parsed × List Token)) :
    (limit : Nat) → Parsed → (deepest : Nat) → List Token → m (Parsed × List Token)
  | 0, first, _, tokens => return (first, tokens)
  | limit + 1, first, deepest, tokens =>
    match op.joint? tokens with
    | none => return (first, tokens)
    | some (token, start) => do
      let (next, rest) ← operand start
      let deepest := max deepest next.depth
      if deepest + 1 > maxDepth then Walk.stop ⟨some token.offset, .tooDeep⟩
      else
        chain op operand limit ⟨combine op first.value next.value, deepest + 1⟩
          (if op.isUnion then deepest else deepest + 1) rest

/-- Reads operands joined by one operator. -/
def readChain (op : Operator) (operand : List Token → m (Parsed × List Token))
    (tokens : List Token) : m (Parsed × List Token) := do
  let (first, rest) ← operand tokens
  chain op operand rest.length first first.depth rest

/-- Whether the number of complement signs at the front is odd, and the tokens after
them. -/
def skipComplements : (odd : Bool) → List Token → Bool × List Token
  | odd, [] => (odd, [])
  | odd, token :: tokens =>
    if token.kind = .complement then skipComplements (!odd) tokens else (odd, token :: tokens)

/-- Reads an operand with any number of complement signs before it. -/
def readComplement (operand : List Token → m (Parsed × List Token))
    (tokens : List Token) : m (Parsed × List Token) := do
  let (odd, start) := skipComplements false tokens
  let (parsed, rest) ← operand start
  if odd then
    if parsed.depth + 1 > maxDepth then Walk.stop (.atHead tokens .tooDeep)
    else return (⟨parsed.value.complement, parsed.depth + 1⟩, rest)
  else return (parsed, rest)

/-- Reads a leaf, or an expression in parentheses if one more may be opened. -/
def readOperand (inner : Option (List Token → m (Parsed × List Token)))
    (tokens : List Token) : m (Parsed × List Token) :=
  match tokens with
  | [] => Walk.stop (.atHead tokens .unexpectedEnd)
  | token :: rest =>
    match token.kind with
    | .pattern | .reference => do
      return (⟨of (.leaf (← Walk.lift (readLeaf token))), 0⟩, rest)
    | .openParen =>
      match inner with
      | none => Walk.stop (.atHead tokens .tooDeep)
      | some read => do
        Walk.pass (.opening .group)
        let (parsed, rest) ← read rest
        match rest with
        | [] => Walk.stop (.atHead rest .expectedClose)
        | token :: next =>
          if token.kind = .closeParen then
            Walk.pass (.closing .group)
            return (parsed, next)
          else Walk.stop (.atHead rest .expectedClose)
    | _ => Walk.stop (.atHead tokens .expectedOperand)

/-- Reads all levels above an operand. -/
def readLevels (inner : Option (List Token → m (Parsed × List Token))) :
    List Token → m (Parsed × List Token) :=
  readChain .union (readChain .juxtaposition (readChain .difference (readChain .intersection
    (readComplement (readOperand inner)))))

/-- Reads an expression in which at most `nesting` parentheses are open at once. -/
def readNested : (nesting : Nat) → List Token → m (Parsed × List Token)
  | 0 => readLevels none
  | nesting + 1 => readLevels (some (readNested nesting))

/-- Reads a whole sequence of tokens as an expression.  No tokens are `nothing`. -/
def readTokens (tokens : List Token) : m Expression :=
  if tokens.isEmpty then return nothing
  else do
    let (parsed, rest) ← readNested maxDepth tokens
    match rest with
    | [] => return parsed.value
    | token :: _ => Walk.stop (.atHead rest (.unexpected (String.ofList token.chars)))

end Expression

end Readers

/-- The expression that a text spells.  A blank text spells `nothing`. -/
def Expression.parse (text : String) : Except (SyntaxError ExpressionFault) Expression :=
  match Token.scan text.toList with
  | .error start =>
    .error ⟨utf8Size text.toList - utf8Size start, .unterminated (start.headD '['), text⟩
  | .ok tokens =>
    (readTokens tokens).mapError fun (misplaced : Misplaced) =>
      ⟨misplaced.offset?.getD (utf8Size text.toList), misplaced.fault, text⟩

end PathSets
