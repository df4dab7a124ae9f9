import RepoSeal.Bytes

/-!
# RepoSeal — TOML values

A value is a scalar, an array or a table. A table remembers how it came to be, because that decides
who may still add to it: a table between braces is complete, a table under a header takes the pairs
below that header, and tables that are only named on the way to others can be filled later.
-/

namespace RepoSeal.Toml

inductive TableKind
  | braces
  | header
  /-- Named on the way to another table by that table's header. -/
  | implied
  /-- Named on the way to a value by a dotted key. -/
  | dotted
deriving DecidableEq, Repr

/-- A value. Floating-point numbers and points in time are kept as written. -/
inductive Value
  | text (s : String)
  | integer (n : Int)
  | float (written : List Char)
  | boolean (b : Bool)
  | moment (written : List Char)
  | array (items : List Value)
  | table (kind : TableKind) (entries : List (String × Value))
  /-- A table for every header of the array. -/
  | tables (rows : List (List (String × Value)))

/-- The entries of a table, each key once. -/
abbrev Entries := List (String × Value)

namespace Entries

/-- Puts a value in the place of the one under a key. -/
def replace (key : String) (v : Value) (es : Entries) : Entries :=
  es.map fun e => if e.1 = key then (key, v) else e

def add (key : String) (v : Value) (es : Entries) : Option Entries :=
  match es.lookup key with
  | some _ => none
  | none => some (es ++ [(key, v)])

/-- Changes the last of some rows. -/
def inLast (f : Entries → Option Entries) : List Entries → Option (List Entries)
  | [] => none
  | [row] => (f row).map fun row' => [row']
  | row :: rows => (inLast f rows).map (row :: ·)

/-! ## Pairs -/

/-- Adds a value under a dotted key. Every key but the last names a table: a new one, one that dotted
keys or headers have named on their way, or the last row of an array. Only a table that dotted keys
have made takes the value. -/
def assign (path : List String) (key : String) (v : Value) (es : Entries) : Option Entries :=
  match path with
  | [] => es.add key v
  | name :: path =>
    match es.lookup name with
    | none => (assign path key v []).map fun inner => es ++ [(name, .table .dotted inner)]
    | some (.table .dotted inner) =>
      (assign path key v inner).map fun inner' => es.replace name (.table .dotted inner')
    | some (.table .implied inner) =>
      if path.isEmpty then none
      else (assign path key v inner).map fun inner' => es.replace name (.table .implied inner')
    | some (.tables rows) =>
      if path.isEmpty then none
      else (inLast (assign path key v) rows).map fun rows' => es.replace name (.tables rows')
    | some _ => none

/-! ## Headers -/

/-- Changes the table that the keys of a header lead to. A missing table is made, and an array stands
for its last row; a complete table cannot be changed. -/
def within (path : List String) (f : Entries → Option Entries) (es : Entries) : Option Entries :=
  match path with
  | [] => f es
  | name :: path =>
    match es.lookup name with
    | none => (within path f []).map fun inner => es ++ [(name, .table .implied inner)]
    | some (.table kind inner) =>
      if kind = .braces then none
      else (within path f inner).map fun inner' => es.replace name (.table kind inner')
    | some (.tables rows) =>
      (inLast (within path f) rows).map fun rows' => es.replace name (.tables rows')
    | some _ => none

/-- Opens a table under a header: a new one, or one that headers have named on their way. -/
def openTable (key : String) (es : Entries) : Option Entries :=
  match es.lookup key with
  | none => some (es ++ [(key, .table .header [])])
  | some (.table .implied inner) => some (es.replace key (.table .header inner))
  | some _ => none

/-- Opens a new row of an array under a header. -/
def openRow (key : String) (es : Entries) : Option Entries :=
  match es.lookup key with
  | none => some (es ++ [(key, .tables [[]])])
  | some (.tables rows) => some (es.replace key (.tables (rows ++ [[]])))
  | some _ => none

end Entries

end RepoSeal.Toml
