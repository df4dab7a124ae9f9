import RepoSeal.Error
import RepoSeal.Log
import RepoSeal.Stream.Source

/-!
# RepoSeal — buffered input

Parsers read through a buffer: bytes that the source has delivered are held until a parser takes
them, and the parser can see whether any bytes remain without taking one. A byte string in memory is
an input that holds everything from the start. `Reader α` is a parser of an `α`; after an error it
leaves the input where the error arose.

Looking for the end asks the source at most once, so an interruption at that moment is reported as a
fault; every other read goes on after interruptions.
-/

namespace RepoSeal

/-- A field that a parser did not know and passed over. -/
structure PassedField where
  context : String
  id : UInt32
  length : UInt32
deriving DecidableEq, Repr

def PassedField.event (f : PassedField) : LogEvent :=
  ⟨.debug, .fields, "skipping unknown field",
    [("field_id", .number f.id.toNat), ("field_len", .number f.length.toNat),
      ("context", .text f.context)]⟩

/-- A source behind a buffer. -/
structure Input where
  /-- Bytes that were read ahead and not taken yet. -/
  held : Bytes
  capacity : Nat := 8192
  source : Source
  /-- The fields passed over so far, the latest first. -/
  passed : List PassedField := []

namespace Input

/-- An input that holds a byte string and nothing else. -/
def ofBytes (b : Bytes) : Input := { held := b, source := { rest := [] } }

/-- An input in front of a source, with nothing read ahead. -/
def ofSource (s : Source) (capacity : Nat) : Input := { held := [], capacity, source := s }

/-- The bytes that no parser has taken yet. -/
def remaining (i : Input) : Bytes := i.held ++ i.source.rest

/-- The events for the fields passed over, in order. -/
def log (i : Input) : Log := i.passed.reverse.map PassedField.event

/-- The held bytes, after one read ahead if there were none. -/
def fill (i : Input) : ReadOutcome × Input :=
  match i.held with
  | [] =>
    match i.source.read i.capacity with
    | (.bytes b, s) => (.bytes b, { i with held := b, source := s })
    | (outcome, s) => (outcome, { i with source := s })
  | held => (.bytes held, i)

/-- One read of at most `asked` bytes: from the held ones, or past an empty buffer if the buffer
could not hold as many. -/
def read (i : Input) (asked : Nat) : ReadOutcome × Input :=
  if i.held.isEmpty && i.capacity ≤ asked then
    match i.source.read asked with
    | (outcome, s) => (outcome, { i with source := s })
  else
    match i.fill with
    | (.bytes b, i') => (.bytes (b.take asked), { i' with held := b.drop asked })
    | (outcome, i') => (outcome, i')

/-- An interruption leaves the bytes as they are, and fewer of them remain. -/
theorem read_interrupted {i i' : Input} {asked : Nat} (h : i.read asked = (.interrupted, i')) :
    i'.source.patience < i.source.patience := by
  unfold read at h
  split at h
  · generalize hr : i.source.read asked = r at h
    obtain ⟨o, s⟩ := r
    cases h
    exact (Source.read_interrupted hr).2.2
  · generalize hf : i.fill = r at h
    obtain ⟨o, j⟩ := r
    cases o with
    | bytes b => cases h
    | failed f => cases h
    | interrupted =>
      cases h
      unfold fill at hf
      split at hf
      · generalize hr : i.source.read i.capacity = r at hf
        obtain ⟨o, s⟩ := r
        cases o <;> cases hf
        exact (Source.read_interrupted hr).2.2
      · cases hf

end Input

inductive ExactRead
  | failed (fault : Fault)
  /-- The data ends before all bytes are there. -/
  | short
  | bytes (b : Bytes)
deriving DecidableEq

namespace Input

/-- Takes exactly `asked` bytes, after the bytes `got`. -/
def readExactAfter (i : Input) (asked : Nat) (got : Array UInt8) : ExactRead × Input :=
  if asked = 0 then (.bytes got.toList, i)
  else
    match _h : i.read asked with
    | (.interrupted, i') => readExactAfter i' asked got
    | (.failed fault, i') => (.failed fault, i')
    | (.bytes [], i') => (.short, i')
    | (.bytes (x :: b), i') => readExactAfter i' (asked - (b.length + 1)) (got ++ (x :: b))
termination_by (asked, i.source.patience)
decreasing_by
  · exact Prod.Lex.right _ (read_interrupted _h)
  · exact Prod.Lex.left _ _ (by omega)

/-- Takes exactly `asked` bytes. -/
def readExact (i : Input) (asked : Nat) : ExactRead × Input := i.readExactAfter asked #[]

end Input

/-! ## Parsers -/

/-- A parser of an `α`. -/
abbrev Reader (α : Type) := ExceptT Error (StateM Input) α

namespace Reader

/-- What a parser makes of an input: its result, and the input after it. -/
def on {α : Type} (p : Reader α) (i : Input) : Except Error α × Input := (p.run).run i

def fail {α : Type} (e : Error) : Reader α := ExceptT.mk (pure (.error e))

/-- What a fault counts for that comes in place of bytes: data may be said to end by a fault, too. -/
def shortfall (context : String) (fault : Fault) : Error :=
  if fault.kind = .unexpectedEnd then .malformed (.truncated context) else .io fault

/-- Takes exactly `asked` bytes; data that ends too soon is malformed. -/
def take (context : String) (asked : Nat) : Reader Bytes := ExceptT.mk fun i =>
  match i.readExact asked with
  | (.bytes b, i') => (.ok b, i')
  | (.short, i') => (.error (.malformed (.truncated context)), i')
  | (.failed fault, i') => (.error (shortfall context fault), i')

/-- Passes over exactly `asked` bytes. Unlike `take` it tells every fault as it is. -/
def skip (context : String) (asked : Nat) : Reader Unit := ExceptT.mk fun i =>
  match i.readExact asked with
  | (.bytes _, i') => (.ok (), i')
  | (.short, i') => (.error (.malformed (.truncated context)), i')
  | (.failed fault, i') => (.error (.io fault), i')

def word (context : String) : Reader UInt32 := ofBe32 <$> take context 4

/-- Whether no bytes remain. -/
def atEnd : Reader Bool := ExceptT.mk fun i =>
  match i.fill with
  | (.bytes b, i') => (.ok b.isEmpty, i')
  | (.failed fault, i') => (.error (.io fault), i')
  | (.interrupted, i') => (.error (.io .interrupted), i')

def note (f : PassedField) : Reader Unit := ExceptT.mk fun i =>
  (.ok (), { i with passed := f :: i.passed })

end Reader

end RepoSeal
