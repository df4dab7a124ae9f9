import RepoSeal.Toml.Scalar

/-!
# RepoSeal — TOML documents

A document is a list of statements, one a line: a pair of a key and a value, the header of a table,
or the header of a row of an array. Its meaning is a table that the statements fill one after the
other.

The readers return what they read together with what follows it. They go on only where something has
been read, so each of them ends.
-/

namespace RepoSeal.Toml

/-- The greatest depth of arrays and tables between braces in one another. -/
def maxDepth : Nat := 79

/-- The most parts of a dotted key. -/
def maxKeyLength : Nat := 79

/-- A key, from the outermost table to the name. -/
structure Key where
  path : List String
  name : String
deriving DecidableEq

inductive Statement
  | pair (key : Key) (value : Value)
  | table (key : Key)
  | row (key : Key)

/-! ## Blanks and comments -/

def skipBlanks (cs : List Char) : List Char := cs.dropWhile isBlank

def skipComment : List Char → List Char
  | '#' :: rest => rest.dropWhile isPrintable
  | cs => cs

/-- Leaves out what may follow a statement on its line, and the end of the line. -/
def endLine (cs : List Char) : Option (List Char) :=
  match skipComment (skipBlanks cs) with
  | [] => some []
  | '\n' :: rest => some rest
  | '\r' :: '\n' :: rest => some rest
  | _ => none

/-- Leaves out blanks, and lines without anything but a comment. -/
def skipLines (cs : List Char) : List Char :=
  match endLine cs with
  | some rest => if rest.length < cs.length then skipLines rest else rest
  | none => skipBlanks cs
termination_by cs.length

/-! ## Keys -/

/-- Whether a character may stand in a name without quotes. -/
def isNameChar (c : Char) : Bool := c.isAlphanum || c == '-' || c == '_'

/-- Reads a name, which has quotes if it holds more than letters, digits, hyphens and
underscores. -/
def readName : List Char → Option (String × List Char)
  | '"' :: rest => (readBasic rest).map fun (name, rest) => (String.ofList name, rest)
  | '\'' :: rest => (readLiteral rest).map fun (name, rest) => (String.ofList name, rest)
  | cs =>
    match cs.takeWhile isNameChar with
    | [] => none
    | name => some (String.ofList name, cs.dropWhile isNameChar)

/-- Reads names with dots between them. Blanks may surround each. -/
def readNames (cs : List Char) : Option (List String × List Char) :=
  match readName (skipBlanks cs) with
  | none => none
  | some (name, rest) =>
    match skipBlanks rest with
    | '.' :: rest' =>
      if rest'.length < cs.length then
        (readNames rest').map fun (names, rest) => (name :: names, rest)
      else none
    | rest' => some ([name], rest')
termination_by cs.length

def readKey (cs : List Char) : Option (Key × List Char) :=
  match readNames cs with
  | none => none
  | some (names, rest) =>
    match names.getLast? with
    | none => none
    | some name =>
      if names.length ≤ maxKeyLength then some (⟨names.dropLast, name⟩, rest) else none

/-! ## Values -/

/-- Reads the items of an array, each by `readItem`, and the bracket that closes it. A comma may
stand behind the last one. -/
def readItems (readItem : List Char → Option (Value × List Char)) (cs : List Char) :
    Option (List Value × List Char) :=
  match skipLines cs with
  | ']' :: rest => some ([], rest)
  | cs' =>
    match readItem cs' with
    | none => none
    | some (v, rest) =>
      match skipLines rest with
      | ']' :: rest' => some ([v], rest')
      | ',' :: rest' =>
        if rest'.length < cs.length then
          (readItems readItem rest').map fun (vs, rest) => (v :: vs, rest)
        else none
      | _ => none
termination_by cs.length

/-- Reads a key and its value, with the equals sign between them. -/
def readPair (readValue : List Char → Option (Value × List Char)) (cs : List Char) :
    Option ((Key × Value) × List Char) :=
  match readKey cs with
  | some (key, '=' :: rest) =>
    (readValue (skipBlanks rest)).map fun (v, rest) => ((key, v), rest)
  | _ => none

/-- Reads pairs with commas between them, and the brace that closes their table. -/
def readPairs (readValue : List Char → Option (Value × List Char)) (cs : List Char) :
    Option (List (Key × Value) × List Char) :=
  match readPair readValue cs with
  | none => none
  | some (p, rest) =>
    match skipBlanks rest with
    | '\x7d' :: rest' => some ([p], rest')
    | ',' :: rest' =>
      if rest'.length < cs.length then
        (readPairs readValue rest').map fun (ps, rest) => (p :: ps, rest)
      else none
    | _ => none
termination_by cs.length

def Entries.ofPairs (pairs : List (Key × Value)) : Option Entries :=
  pairs.foldlM (fun es (key, v) => es.assign key.path key.name v) []

/-- Reads a table behind the brace that opens it. -/
def readBraces (readValue : List Char → Option (Value × List Char)) (cs : List Char) :
    Option (Value × List Char) :=
  match skipBlanks cs with
  | '\x7d' :: rest => some (.table .braces [], rest)
  | cs' =>
    match readPairs readValue cs' with
    | none => none
    | some (pairs, rest) => (Entries.ofPairs pairs).map fun es => (.table .braces es, rest)

/-- Reads a value whose arrays and tables are at most `depth` deep in one another. -/
def readValue (depth : Nat) (cs : List Char) : Option (Value × List Char) :=
  match cs, depth with
  | '[' :: rest, depth + 1 =>
    (readItems (readValue depth) rest).map fun (vs, rest) => (.array vs, rest)
  | '\x7b' :: rest, depth + 1 => readBraces (readValue depth) rest
  | '"' :: _, _ => (readText cs).map fun (s, rest) => (.text s, rest)
  | '\'' :: _, _ => (readText cs).map fun (s, rest) => (.text s, rest)
  | cs, _ => readScalar cs

/-! ## Statements -/

def readStatement : List Char → Option (Statement × List Char)
  | '[' :: '[' :: rest =>
    match readKey rest with
    | some (key, ']' :: ']' :: rest) => some (.row key, rest)
    | _ => none
  | '[' :: rest =>
    match readKey rest with
    | some (key, ']' :: rest) => some (.table key, rest)
    | _ => none
  | cs => (readPair (readValue maxDepth) cs).map fun (p, rest) => (.pair p.1 p.2, rest)

def readStatements (cs : List Char) : Option (List Statement) :=
  if cs = [] then some []
  else
    match endLine cs with
    | some rest => if rest.length < cs.length then readStatements rest else none
    | none =>
      match readStatement (skipBlanks cs) with
      | none => none
      | some (s, rest) =>
        match endLine rest with
        | none => none
        | some rest' =>
          if rest'.length < cs.length then (readStatements rest').map (s :: ·) else none
termination_by cs.length

/-! ## Meaning -/

/-- A table on its way to being filled, and the header below which the next pairs stand. -/
structure Filling where
  root : Entries := []
  header : List String := []

namespace Statement

/-- What a statement adds to a table. It is an error to name something twice. -/
def apply (st : Filling) : Statement → Option Filling
  | .pair key v =>
    (st.root.within st.header fun es => es.assign key.path key.name v).map fun root =>
      { st with root }
  | .table key =>
    (st.root.within key.path (Entries.openTable key.name)).map fun root =>
      { root, header := key.path ++ [key.name] }
  | .row key =>
    (st.root.within key.path (Entries.openRow key.name)).map fun root =>
      { root, header := key.path ++ [key.name] }

end Statement

def Entries.ofStatements (statements : List Statement) : Option Entries :=
  (statements.foldlM Statement.apply {}).map Filling.root

/-- The table that a document means, if it is one. A byte order mark may stand in front. -/
def parse (document : String) : Option Entries :=
  let cs := match document.toList with
    | '\ufeff' :: rest => rest
    | cs => cs
  (readStatements cs).bind Entries.ofStatements

/-! ## Writing -/

def writeHeader (name : String) : List Char := '[' :: name.toList ++ [']', '\n']

def writePair (name : String) (value : List Char) : List Char :=
  name.toList ++ [' ', '=', ' '] ++ value ++ ['\n']

def writeNumber (n : Nat) : List Char := Nat.toDigits 10 n

def writeFlag (b : Bool) : List Char := (if b then "true" else "false").toList

end RepoSeal.Toml
