import RepoSeal.Age.Flaw
import RepoSeal.Age.Scanner
import RepoSeal.Text.Base64

/-!
# RepoSeal — the header of an age file

A header names the version of the format, then has one stanza for every recipient, and ends in a tag over
all of it. A stanza is a line of words and a body in Base64, whose lines have 64 characters but the last,
which is shorter. An older way of writing stanzas leaves a body out when it is empty, and its last line
when that is.
-/

namespace RepoSeal.Age

structure Stanza where
  kind : Bytes
  args : List Bytes
  body : Bytes
deriving DecidableEq

structure Header where
  stanzas : List Stanza
  tag : Bytes
deriving DecidableEq

namespace Header

/-- What every age file begins with. -/
def magic : Bytes := utf8 "age-encryption.org/"

def version : Bytes := utf8 "v1"

def stanzaMark : Bytes := utf8 "-> "

/-- What the last line begins with. -/
def tagMark : Bytes := utf8 "---"

def tagTextLength : Nat := 43

/-- The number of characters in a full line of a body. -/
def lineLength : Nat := 64

def space : Bytes := [32]

/-! ## Reading -/

/-- Whether a byte may stand in a word. -/
def isWordByte (x : UInt8) : Bool := 33 ≤ x && x ≤ 126

open Scanner in
/-- The words of a stanza: its kind, and what it says of it. -/
def words : Scanner (List Bytes) := do
  exactly stanzaMark
  separated (exactly space) (run1 isWordByte)

/-- The bytes that a short text writes in Base64, if there are so many. -/
def decodeExactly (n : Nat) (text : Bytes) : Option (Octets n) :=
  if text.length = (4 * n + 2) / 3 then (Text.Base64.decode? text).bind (Octets.ofList? n) else none

open Scanner in
def fullLine : Scanner Bytes := do
  let text ← run lineLength lineLength Text.Base64.isDigit
  lineFeed
  match Text.Base64.decode? text with
  | some b => pure b
  | none => refuse

open Scanner in
/-- The last line of a body. -/
def shortLine : Scanner Bytes := do
  let text ← run 0 (lineLength - 1) Text.Base64.isDigit
  lineFeed
  match Text.Base64.decode? text with
  | some b => pure b
  | none => refuse

open Scanner in
/-- The lines of a body up to the short one, which is tried first. -/
def bodyLines (p : Place) : Scan Bytes :=
  match shortLine p with
  | .refused ahead =>
    let p' : Place := { p with ahead := p.reach ahead }
    match fullLine p' with
    | .done b q =>
      if q.rest.length < p.rest.length then
        match bodyLines q with
        | .done bs r => .done (b ++ bs) r
        | .refused ahead => .refused (p.rest.length - q.rest.length + ahead)
        | .ended => .ended
      else .refused p'.ahead
    | .refused ahead => .refused ahead
    | .ended => .ended
  | s => s
termination_by p.rest.length

def stanzaOf (args : List Bytes) (body : Bytes) : Stanza := ⟨args.headD [], args.tail, body⟩

open Scanner in
def stanza : Scanner Stanza := do
  let args ← words
  lineFeed
  let body ← bodyLines
  return stanzaOf args body

/-- The body that lines make: all but the last are full, and no line is longer. -/
def joinLines (lines : List (Bytes × Bytes)) : Option Bytes :=
  let lengths := lines.map fun l => l.1.length
  if lengths.dropLast.all (· == lineLength) && lengths.all (· ≤ lineLength) then
    some (lines.flatMap Prod.snd)
  else none

open Scanner in
def olderStanza : Scanner Stanza := do
  let args ← words
  let line : Scanner (Bytes × Bytes) :=
    filterMap (fun text => (Text.Base64.decode? text).map fun b => (text, b))
      (run1 Text.Base64.isDigit)
  let body ← optional do
    lineFeed
    filterMap joinLines (separated lineFeed line)
  lineFeed
  return stanzaOf args (body.getD [])

open Scanner in
def tagLine : Scanner Bytes := do
  exactly tagMark
  exactly space
  let tag ← filterMap (decodeExactly 32) (take tagTextLength)
  lineFeed
  return tag.toList

open Scanner in
/-- What follows the magic in a header with stanzas of one kind. -/
def withStanzas (stanza : Scanner Stanza) : Scanner (Option Header) := do
  exactly version
  lineFeed
  let stanzas ← many1 stanza
  let tag ← tagLine
  return some { stanzas, tag }

open Scanner in
/-- The name of any other version. -/
def otherVersion : Scanner (Option Header) := do
  let _ ← run1 isWordByte
  lineFeed
  return none

open Scanner in
/-- A header, or nothing if it has another version. -/
def scanner : Scanner (Option Header) := do
  exactly magic
  orElse (withStanzas stanza) (orElse (withStanzas olderStanza) otherVersion)

/-- The header at the front of a file, the bytes it was written with, and what follows it. -/
def read (data : Bytes) : Except Flaw (Header × Bytes × Bytes) :=
  match scanner ⟨data, 0⟩ with
  | .ended => .error .short
  | .refused _ => .error .header
  | .done none _ => .error .version
  | .done (some h) p =>
    let n := data.length - p.rest.length + p.ahead
    .ok (h, data.take n, data.drop n)

/-! ## Writing -/

def writeBody (body : Bytes) : Bytes :=
  let text := Text.Base64.encode body
  let lines := piecesOf lineLength text
  lines.flatMap (· ++ [10]) ++ if text.length % lineLength = 0 then [10] else []

/-- A stanza, as it is written. -/
def writeStanza (s : Stanza) : Bytes :=
  stanzaMark ++ (space.intercalate (s.kind :: s.args)) ++ [10] ++ writeBody s.body

/-- A header up to the mark of its tag: what the tag covers. -/
def writeCovered (stanzas : List Stanza) : Bytes :=
  magic ++ version ++ [10] ++ stanzas.flatMap writeStanza ++ tagMark

/-- A tag behind its mark. -/
def writeTag (tag : Bytes) : Bytes := space ++ Text.Base64.encode tag ++ [10]

/-- The part of a written header that its tag covers. -/
def covered (written : Bytes) : Bytes := written.take (written.length - (tagTextLength + 2))

end Header

end RepoSeal.Age
