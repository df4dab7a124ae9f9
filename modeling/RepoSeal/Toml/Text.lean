import RepoSeal.Bytes

/-!
# RepoSeal — TOML text

The four ways in which TOML writes a text: between double quotes, where a backslash begins an escape,
or between single quotes, where every character stands for itself; and each of the two on one line,
or on several between three quotes. The readers begin behind the opening quotes and return the text
with what follows the closing ones. The writer chooses a way in which the text can be read back.
-/

namespace RepoSeal.Toml

/-! ## Characters -/

def isBlank (c : Char) : Bool := c == ' ' || c == '\t'

/-- Whether a character may stand for itself in a text or a comment: any but the control characters,
of which the tab alone is allowed. -/
def isPrintable (c : Char) : Bool := c == '\t' || (' ' ≤ c && c != '\x7f')

def isHexDigit (c : Char) : Bool :=
  c.isDigit || ('a' ≤ c && c ≤ 'f') || ('A' ≤ c && c ≤ 'F')

def hexValue (c : Char) : Nat :=
  if c.isDigit then c.toNat - 48 else if 'a' ≤ c then c.toNat - 87 else c.toNat - 55

def ofDigits (base : Nat) (digits : List Char) : Nat :=
  digits.foldl (fun n c => n * base + hexValue c) 0

def isLineBreak : List Char → Bool
  | '\n' :: _ => true
  | '\r' :: '\n' :: _ => true
  | _ => false

/-- The character whose code point has the given digits, unless one of them is none or there is no
such character. -/
def ofCodePoint? (digits : List Char) : Option Char :=
  if digits.all isHexDigit then
    let n := ofDigits 16 digits
    if h : n.isValidChar then some (Char.ofNatAux n h) else none
  else none

def shortEscape? : Char → Option Char
  | 'b' => some '\x08'
  | 't' => some '\t'
  | 'n' => some '\n'
  | 'f' => some '\x0c'
  | 'r' => some '\r'
  | '"' => some '"'
  | '\\' => some '\\'
  | _ => none

/-! ## Reading -/

/-- Reads an escape behind its backslash. -/
def readEscape : List Char → Option (Char × List Char)
  | [] => none
  | 'u' :: rest => if 4 ≤ rest.length then
      (ofCodePoint? (rest.take 4)).map fun c => (c, rest.drop 4) else none
  | 'U' :: rest => if 8 ≤ rest.length then
      (ofCodePoint? (rest.take 8)).map fun c => (c, rest.drop 8) else none
  | c :: rest => (shortEscape? c).map fun e => (e, rest)

/-- An escape has at least one character. -/
theorem length_of_readEscape {cs rest : List Char} {c : Char}
    (h : readEscape cs = some (c, rest)) : rest.length < cs.length := by
  unfold readEscape at h
  split at h
  · cases h
  · split at h
    · obtain ⟨_, _, h⟩ := Option.map_eq_some_iff.1 h
      cases h
      simp only [List.length_cons, List.length_drop]
      omega
    · cases h
  · split at h
    · obtain ⟨_, _, h⟩ := Option.map_eq_some_iff.1 h
      cases h
      simp only [List.length_cons, List.length_drop]
      omega
    · cases h
  · obtain ⟨_, _, h⟩ := Option.map_eq_some_iff.1 h
    cases h
    exact Nat.lt_succ_self _

/-- Puts a character in front of a text that has been read. -/
def consText (c : Char) : Option (List Char × List Char) → Option (List Char × List Char) :=
  Option.map fun (text, rest) => (c :: text, rest)

def readLiteral : List Char → Option (List Char × List Char)
  | [] => none
  | '\'' :: rest => some ([], rest)
  | c :: rest => if isPrintable c then consText c (readLiteral rest) else none

def readBasic (cs : List Char) : Option (List Char × List Char) :=
  match cs with
  | [] => none
  | '"' :: rest => some ([], rest)
  | '\\' :: rest =>
    match _h : readEscape rest with
    | some (c, rest') => consText c (readBasic rest')
    | none => none
  | c :: rest => if isPrintable c then consText c (readBasic rest) else none
termination_by cs.length
decreasing_by
  · have := length_of_readEscape _h
    simp only [List.length_cons]
    omega
  · exact Nat.lt_succ_self _

/-- What three quotes close: a text may end in up to two quotes of its own before them. -/
def closing (quote : Char) : List Char → Option (List Char × List Char)
  | a :: b :: c :: rest =>
    if a = quote ∧ b = quote ∧ c = quote then
      match rest with
      | d :: e :: rest' =>
        if d = quote then if e = quote then some ([quote, quote], rest') else some ([quote], e :: rest')
        else some ([], rest)
      | [d] => if d = quote then some ([quote], []) else some ([], rest)
      | [] => some ([], rest)
    else none
  | _ => none

/-- Reads a text of several lines between three single quotes. -/
def readLiteralLines (cs : List Char) : Option (List Char × List Char) :=
  match closing '\'' cs with
  | some done => some done
  | none =>
    match cs with
    | [] => none
    | '\r' :: '\n' :: rest => consText '\n' (readLiteralLines rest)
    | c :: rest => if isPrintable c || c == '\n' then consText c (readLiteralLines rest) else none

/-- Reads a text of several lines between three double quotes. A backslash at the end of a line takes
the line break and all blanks and line breaks behind it out of the text, which `trimming` stands
for. -/
def readBasicLines (trimming : Bool) (cs : List Char) : Option (List Char × List Char) :=
  match closing '"' cs with
  | some done => some done
  | none =>
    match cs with
    | [] => none
    | '\r' :: '\n' :: rest =>
      if trimming then readBasicLines true rest else consText '\n' (readBasicLines false rest)
    | '\\' :: rest =>
      if isLineBreak (rest.dropWhile isBlank) then readBasicLines true rest
      else
        match _h : readEscape rest with
        | some (c, rest') => consText c (readBasicLines false rest')
        | none => none
    | c :: rest =>
      if trimming && (isBlank c || c == '\n') then readBasicLines true rest
      else if isPrintable c || c == '\n' then consText c (readBasicLines false rest)
      else none
termination_by cs.length
decreasing_by
  · simp only [List.length_cons]; omega
  · simp only [List.length_cons]; omega
  · exact Nat.lt_succ_self _
  · have := length_of_readEscape _h
    simp only [List.length_cons]
    omega
  · exact Nat.lt_succ_self _
  · exact Nat.lt_succ_self _

/-- Leaves out the line break that may follow three opening quotes. -/
def afterOpening : List Char → List Char
  | '\n' :: rest => rest
  | '\r' :: '\n' :: rest => rest
  | cs => cs

def readText : List Char → Option (String × List Char)
  | '"' :: '"' :: '"' :: rest => named (readBasicLines false (afterOpening rest))
  | '\'' :: '\'' :: '\'' :: rest => named (readLiteralLines (afterOpening rest))
  | '"' :: rest => named (readBasic rest)
  | '\'' :: rest => named (readLiteral rest)
  | _ => none
where
  named : Option (List Char × List Char) → Option (String × List Char) :=
    Option.map fun (text, rest) => (String.ofList text, rest)

/-! ## Writing -/

inductive Style
  | basic
  | basicLines
  | literal
  | literalLines
deriving DecidableEq, Repr

def longestQuoteRun (cs : List Char) : Nat :=
  (cs.foldl (fun (run, longest) c =>
    if c = '\'' then (run + 1, max longest (run + 1)) else (0, longest)) (0, 0)).2

/-- Whether a text is better written without escapes, and can be: it has a character that would need
one, but no control character and no single quotes that would close it. -/
def prefersLiteral (cs : List Char) : Bool :=
  (cs.contains '"' || cs.contains '\\') && cs.all (fun c => isPrintable c || c == '\n') &&
    decide (longestQuoteRun cs < 3) && cs.getLast? != some '\''

def styleOf (cs : List Char) : Style :=
  if prefersLiteral cs then
    if cs.contains '\n' || cs.contains '\'' then .literalLines else .literal
  else if cs.contains '\n' then .basicLines
  else .basic

def upperHexDigit (n : Nat) : Char := Char.ofNat (if n < 10 then 48 + n else 55 + n)

/-- A character between double quotes. A line break stands for itself if the text has several
lines. -/
def writeChar (lines : Bool) (c : Char) : List Char :=
  match c with
  | '\x08' => ['\\', 'b']
  | '\t' => ['\\', 't']
  | '\n' => if lines then ['\n'] else ['\\', 'n']
  | '\x0c' => ['\\', 'f']
  | '\r' => ['\\', 'r']
  | '"' => ['\\', '"']
  | '\\' => ['\\', '\\']
  | c =>
    if isPrintable c then [c]
    else ['\\', 'u', '0', '0', upperHexDigit (c.toNat / 16), upperHexDigit (c.toNat % 16)]

/-- A text with its quotes. Only a text of several lines has a line break behind its opening
quotes. -/
def writeText (s : String) : List Char :=
  let cs := s.toList
  match styleOf cs with
  | .basic => '"' :: cs.flatMap (writeChar false) ++ ['"']
  | .basicLines => ['"', '"', '"', '\n'] ++ cs.flatMap (writeChar true) ++ ['"', '"', '"']
  | .literal => '\'' :: cs ++ ['\'']
  | .literalLines =>
    ['\'', '\'', '\''] ++ (if cs.contains '\n' then ['\n'] else []) ++ cs ++ ['\'', '\'', '\'']

end RepoSeal.Toml
