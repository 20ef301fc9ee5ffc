import PathSets.Glob.Regex
import PathSets.Path.Basic
import PathSets.Predicate.Basic

/-!
# Predicate libraries

A library gives meaning to the functions that predicates call.  A predicate is
linked before it is used: each name is replaced by the function of the library
(`Predicate.link`).  This fails with the first name, from left to right, that the
library does not have.  A linked predicate is true of a path or not
(`LinkedPredicate.evaluate`).

Patterns rely on two things that are not theirs: the functions that predicates call,
and the engine that matches the regular expressions of globs.  A library has both.
-/

namespace PathSets

/-- What a function answers for a path and the arguments of a call. -/
abbrev Test : Type :=
  Path → List Argument → Bool

/-- The functions that predicates may call, by name, and the engine for globs. -/
structure Library where
  find? : String → Option Test
  engine : RegexEngine := .basic

namespace Library

/-- The library without functions. -/
def empty : Library :=
  { find? := fun _ => none }

/-- The library with one more function, which replaces one of the same name. -/
def define (library : Library) (name : String) (test : Test) : Library :=
  { library with find? := fun asked => if asked = name then some test else library.find? asked }

/-- The library of the two kinds of paths: `isPrimPath` and `isPropertyPath`. -/
def basic : Library :=
  (empty.define "isPrimPath" fun p _ => p.isPrim).define "isPropertyPath" fun p _ => p.isProperty

def contains (library : Library) (name : String) : Bool :=
  (library.find? name).isSome

end Library

/-- A predicate with functions in the place of their names. -/
inductive LinkedPredicate where
  | call (test : Test) (args : List Argument)
  | not (operand : LinkedPredicate)
  | and (left right : LinkedPredicate)
  | or (left right : LinkedPredicate)

/-- Whether a linked predicate is true of a path. -/
def LinkedPredicate.evaluate (p : Path) : LinkedPredicate → Bool
  | call test args => test p args
  | not operand => !operand.evaluate p
  | and left right => left.evaluate p && right.evaluate p
  | or left right => left.evaluate p || right.evaluate p

/-- What joins two linked predicates. -/
def Connective.link : Connective → LinkedPredicate → LinkedPredicate → LinkedPredicate
  | or => .or
  | juxtaposition => .and
  | and => .and

/-- The predicate with the functions of a library, or the first name that is missing. -/
def Predicate.link (library : Library) : Predicate → Except String LinkedPredicate
  | call c =>
    match library.find? c.name with
    | some test => .ok (.call test c.args)
    | none => .error c.name
  | not operand => do
    return .not (← operand.link library)
  | binary op left right => do
    let left ← left.link library
    return op.link left (← right.link library)

end PathSets
