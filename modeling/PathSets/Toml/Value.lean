/-!
# TOML values

A TOML document is a table: values by key, in the order in which they are
written.  A key may be defined only once, and which tables may be added to later
depends on how they came about (`Origin`):

* a table that a header only passes through may still get a header of its own;
* a table made by a dotted key may get further dotted keys;
* a table with a header, an inline table and an array are complete.

A dotted key may pass through a table that a header passes through, but the table
in which it puts its value must have been made by a dotted key.

`Table.at?` changes the table at the end of a sequence of keys under these rules
and makes the tables on the way.  `Table.addHeader?`, `Table.addElement?` and
`Table.insert?` are the three ways in which a document grows.
-/

namespace PathSets.Toml

/-- How a table came about. -/
inductive Origin where
  /-- A header or an array header passes through it. -/
  | implied
  | header
  | dotted
  | inline
  deriving DecidableEq, Repr

/-- Whether the front of a dotted key may go to a table, which is the last one on its
way if `last` is set. -/
def Origin.admitsDotted (last : Bool) : Origin → Bool
  | .implied => !last
  | .dotted => true
  | _ => false

/-- A TOML value.  Numbers and dates are kept as they are written. -/
inductive Value where
  | string (text : String)
  | boolean (value : Bool)
  | number (text : String)
  | date (text : String)
  | array (items : List Value)
  | table (origin : Origin) (entries : List (String × Value))
  /-- An array of tables that grows by array headers. -/
  | tables (elements : List (List (String × Value)))

/-- Values by key. -/
abbrev Table : Type :=
  List (String × Value)

namespace Table

/-- The value of a key. -/
def get? (table : Table) (key : String) : Option Value :=
  table.lookup key

/-- The table with another value for a key that it has. -/
def replace (table : Table) (key : String) (value : Value) : Table :=
  table.map fun (k, v) => if k = key then (k, value) else (k, v)

/-- Changes the table at the end of `keys`.  If the keys are the front of a dotted
key, it may only go where a table admits that. -/
def at? (dotted : Bool) (change : Table → Option Table) : List String → Table → Option Table
  | [], table => change table
  | key :: keys, table =>
    match table.get? key with
    | none => do
      let inner ← at? dotted change keys []
      return table ++ [(key, .table (if dotted then .dotted else .implied) inner)]
    | some (.table origin inner) =>
      if origin = .inline || (dotted && !origin.admitsDotted keys.isEmpty) then none
      else do
        let inner ← at? dotted change keys inner
        return table.replace key (.table origin inner)
    | some (.tables elements) =>
      if dotted && keys.isEmpty then none
      else do
        let last ← elements.getLast?
        let last ← at? dotted change keys last
        return table.replace key (.tables (elements.dropLast ++ [last]))
    | some _ => none

/-- Adds a value for a new key. -/
def insertHere? (key : String) (value : Value) (table : Table) : Option Table :=
  if (table.get? key).isSome then none else some (table ++ [(key, value)])

/-- Adds a value for a key with dots. -/
def insert? (table : Table) (keys : List String) (value : Value) : Option Table := do
  let key ← keys.getLast?
  table.at? true (insertHere? key value) keys.dropLast

/-- Adds a table for a header. -/
def addHeader? (table : Table) (keys : List String) : Option Table := do
  let key ← keys.getLast?
  table.at? false (fun inner =>
    match inner.get? key with
    | none => some (inner ++ [(key, .table .header [])])
    | some (.table .implied entries) => some (inner.replace key (.table .header entries))
    | some _ => none) keys.dropLast

/-- Adds an element to an array of tables for an array header. -/
def addElement? (table : Table) (keys : List String) : Option Table := do
  let key ← keys.getLast?
  table.at? false (fun inner =>
    match inner.get? key with
    | none => some (inner ++ [(key, .tables [[]])])
    | some (.tables elements) => some (inner.replace key (.tables (elements ++ [[]])))
    | some _ => none) keys.dropLast

end Table

end PathSets.Toml
