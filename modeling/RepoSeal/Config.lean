import RepoSeal.Envelope.Format
import RepoSeal.Plan
import RepoSeal.Toml.Document

/-!
# RepoSeal — configuration

What a user can choose: where keys are kept, how data is read and buffered, which private identity
opens wrapped keys, and what is logged. It is read from a TOML document, in which everything may be
left out and everything unknown is passed over, and can be written as one.
-/

namespace RepoSeal

structure KeyPlaces where
  /-- The private directory; key files are below it. -/
  stateDir : Path := ⟨".git/git-crypt"⟩
  keysDir : Path := ⟨".git-crypt"⟩
deriving DecidableEq

structure Buffering where
  /-- The bytes of a plaintext that are kept in memory. -/
  spillThreshold : Nat := 8 * 1024 * 1024
  pieceSize : Nat := 1024
deriving DecidableEq

/-- Whose identity opens wrapped keys, and who may be given one. -/
structure Identities where
  file : Option Path := none
  /-- Whether keys are wrapped without asking if a recipient is trusted. -/
  trustRecipients : Bool := false
deriving DecidableEq

structure Logging where
  level : String := "info"
  format : String := "text"
deriving DecidableEq

structure Config where
  places : KeyPlaces := {}
  buffering : Buffering := {}
  identities : Identities := {}
  logging : Logging := {}
deriving DecidableEq

/-! ## Sections -/

open Toml in
/-- A key of a section, with what its value changes there; a value of another type is refused. -/
structure SectionKey (σ : Type) where
  name : String
  set : Value → σ → Option σ

namespace SectionKey

open Toml

variable {σ : Type}

def ofText (name : String) (set : String → σ → σ) : SectionKey σ where
  name
  set
    | .text s, c => some (set s c)
    | _, _ => none

/-- A key whose value is an integer that is not below zero. -/
def ofNumber (name : String) (set : Nat → σ → σ) : SectionKey σ where
  name
  set
    | .integer (.ofNat n), c => some (set n c)
    | _, _ => none

def ofFlag (name : String) (set : Bool → σ → σ) : SectionKey σ where
  name
  set
    | .boolean b, c => some (set b c)
    | _, _ => none

/-- Reads named values. Names that are no keys are passed over. -/
def readEntries (keys : List (SectionKey σ)) (initial : σ) (es : Entries) : Option σ :=
  es.foldlM
    (fun c (name, v) =>
      match keys.find? (·.name = name) with
      | some key => key.set v c
      | none => some c)
    initial

/-- Reads a list of values, which belong to the keys in their order. -/
def readItems (keys : List (SectionKey σ)) (initial : σ) (vs : List Value) : Option σ :=
  (keys.zip vs).foldlM (fun c (key, v) => key.set v c) initial

/-- Reads a section, which may be a table or an array. A point in time counts as a table without any
of the keys. -/
def read (keys : List (SectionKey σ)) (initial : σ) : Value → Option σ
  | .table _ es => readEntries keys initial es
  | .array vs => readItems keys initial vs
  | .tables rows => readItems keys initial (rows.map (.table .header))
  | .moment _ => some initial
  | _ => none

def ofSection {τ : Type} (name : String) (keys : List (SectionKey τ)) (get : σ → τ)
    (set : τ → σ → σ) : SectionKey σ where
  name
  set v c := (read keys (get c) v).map fun s => set s c

end SectionKey

namespace Config

open SectionKey

def placeKeys : List (SectionKey KeyPlaces) :=
  [ofText "state_dir" fun s c => { c with stateDir := ⟨s⟩ },
    ofText "keys_dir" fun s c => { c with keysDir := ⟨s⟩ }]

def bufferingKeys : List (SectionKey Buffering) :=
  [ofNumber "spill_threshold_bytes" fun n c => { c with spillThreshold := n },
    ofNumber "io_buffer_size" fun n c => { c with pieceSize := n }]

def identityKeys : List (SectionKey Identities) :=
  [ofText "age_identity" fun s c => { c with file := some ⟨s⟩ },
    ofFlag "trust_recipients" fun b c => { c with trustRecipients := b }]

def loggingKeys : List (SectionKey Logging) :=
  [ofText "level" fun s c => { c with level := s },
    ofText "format" fun s c => { c with format := s }]

def sections : List (SectionKey Config) :=
  [ofSection "repo" placeKeys places fun s c => { c with places := s },
    ofSection "crypto" bufferingKeys buffering fun s c => { c with buffering := s },
    ofSection "identity" identityKeys identities fun s c => { c with identities := s },
    ofSection "log" loggingKeys logging fun s c => { c with logging := s }]

/-! ## Reading and writing -/

/-- Reads a configuration. What it leaves out is as by default; reading nothing at a time is
refused. -/
def ofToml (document : String) : Except ConfigFlaw Config :=
  match (Toml.parse document).bind (readEntries sections {}) with
  | none => .error .notToml
  | some c => if c.buffering.pieceSize = 0 then .error .emptyBuffer else .ok c

/-- The lines of a configuration, with an empty one between sections. -/
def writeLines (c : Config) : List Char :=
  let optional (name : String) : Option Path → List Char
    | some p => Toml.writePair name (Toml.writeText p.text)
    | none => []
  Toml.writeHeader "repo" ++
    Toml.writePair "state_dir" (Toml.writeText c.places.stateDir.text) ++
    Toml.writePair "keys_dir" (Toml.writeText c.places.keysDir.text) ++
    '\n' :: Toml.writeHeader "crypto" ++
    Toml.writePair "spill_threshold_bytes" (Toml.writeNumber c.buffering.spillThreshold) ++
    Toml.writePair "io_buffer_size" (Toml.writeNumber c.buffering.pieceSize) ++
    '\n' :: Toml.writeHeader "identity" ++
    optional "age_identity" c.identities.file ++
    Toml.writePair "trust_recipients" (Toml.writeFlag c.identities.trustRecipients) ++
    '\n' :: Toml.writeHeader "log" ++
    Toml.writePair "level" (Toml.writeText c.logging.level) ++
    Toml.writePair "format" (Toml.writeText c.logging.format)

def toToml (c : Config) : String := String.ofList c.writeLines

/-- Whether the format has integers for the numbers of a configuration. -/
def isWritable (c : Config) : Bool :=
  c.buffering.spillThreshold ≤ Toml.maxInteger && c.buffering.pieceSize ≤ Toml.maxInteger

/-- The document that a configuration is written as, if it can be written. -/
def toToml? (c : Config) : Option String := if c.isWritable then some c.toToml else none

/-- The configuration in the file at a path. Where there is none, all is as by default. -/
def load (p : Path) : Attempt Error Config := do
  if ← Attempt.ask (Plan.exists_ p) then
    let document ← Attempt.orFault (Plan.readText p)
    Attempt.ofExcept ((ofToml document).mapError fun flaw => .config (.inFile p flaw))
  else
    Attempt.ask (Plan.log
      [⟨.debug, .config, s!"config file not found: {p}  (using defaults)", []⟩])
    return {}

/-! ## What follows from a configuration -/

def keyFilesDir (home : Option String) (c : Config) : Path :=
  c.places.stateDir.expandHome home / "keys"

def options (c : Config) : Envelope.Options where
  spillThreshold := c.buffering.spillThreshold
  pieceSize := c.buffering.pieceSize

end Config

end RepoSeal
