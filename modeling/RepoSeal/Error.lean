import RepoSeal.Fault
import RepoSeal.Path
import RepoSeal.Text.Quoted

/-!
# RepoSeal — errors

An error names its cause. The causes fall into the categories that callers and logs tell apart, and
one function per category gives the wording, so no other module writes error text. `reported`
carries the words of a party outside the library, such as a key wrapper that is plugged in.
-/

namespace RepoSeal

/-- Why serialized data is not what it should be. `context` names the structure being read. -/
inductive Malformation
  /-- The data ends inside the structure. -/
  | truncated (context : String)
  /-- A word field does not have four bytes. -/
  | wordLength (context : String) (length : UInt32)
  /-- A field of fixed size has another length. -/
  | fixedLength (context : String) (expected : Nat) (length : UInt32)
  /-- A field to be passed over is longer than any writer makes one. -/
  | fieldTooLong (context : String) (id length : UInt32)
  /-- A key entry lacks its version, its cipher key or its digest key. -/
  | missingField
  /-- Data follows the bytes of an unframed key. -/
  | trailingData (expected : Nat)
  /-- The data does not begin like a key file. -/
  | notKeyFile
  /-- The field of the key name is longer than a name may be. -/
  | nameFieldLength (length : UInt32)
  /-- The key name is not UTF-8. -/
  | nameNotText
  /-- The stored key name is not a valid one. -/
  | nameRefused (name reason : String)
  /-- Two entries have one version. -/
  | duplicateVersion (version : UInt32)
  /-- The file at this path does not begin like a key file. -/
  | unframedKey (path : Path)
  /-- The wrapped key file at this path lacks the version it is filed under. -/
  | versionAbsent (path : Path) (version : UInt32)
  /-- The wrapped key file at this path is filed under another name. -/
  | nameMismatch (path : Path) (name : Option String)
  | reported (text : String)
deriving DecidableEq

/-- Why well-formed data is refused: a newer program wrote it. -/
inductive Incompatibility
  /-- The key file has another format version. -/
  | formatVersion (found expected : UInt32)
  /-- A field must be understood and is not known. -/
  | criticalField (context : String) (id : UInt32)
  | reported (text : String)
deriving DecidableEq

/-- Which key is missing. `owner` is the shown name of a key. -/
inductive MissingKey
  /-- The key file lacks a version. -/
  | version (owner : String) (version : UInt32)
  /-- The key file has no entry at all. -/
  | noEntries (owner : String)
  /-- No local identity has a wrapped copy of the key. -/
  | noCopy (owner : String) (version : UInt32)
  /-- No place holds a private identity. -/
  | noIdentity (lastPlace : String)
  /-- No local identity of a wrapping service has this fingerprint. -/
  | noSecret (service fingerprint : String)
  | reported (text : String)
deriving DecidableEq

/-- What is wrong with a configuration. -/
inductive ConfigFlaw
  /-- The text is not a configuration. -/
  | notToml
  /-- Reads of no bytes at all are asked for. -/
  | emptyBuffer
  /-- The file at this path does not hold a configuration. -/
  | inFile (path : Path) (flaw : ConfigFlaw)
  /-- The identity file at this path cannot be read. -/
  | unreadableIdentity (path : Path) (fault : Fault)
  | reported (text : String)
deriving DecidableEq

/-- Why a key name is refused. -/
inductive NameFlaw
  | empty
  | reserved
  | characters
  | tooLong
  | reported (text : String)
deriving DecidableEq

/-- Everything that an operation of the library can fail with. -/
inductive Error
  | malformed (cause : Malformation)
  | incompatible (cause : Incompatibility)
  | notEncrypted
  | tampered
  | capacityExceeded
  | keyNotFound (cause : MissingKey)
  | invalidKeyName (name : String) (flaw : NameFlaw)
  | external (service text : String)
  | config (flaw : ConfigFlaw)
  | io (fault : Fault)
  /-- The output of a cipher call does not have the length of its input. -/
  | outputLength (output input : Nat)
  /-- The greatest version number is taken. -/
  | versionsExhausted
  | other (text : String)
deriving DecidableEq

/-! ## Wording -/

/-- The reason that a message gives for refusing a key name. -/
def NameFlaw.reason : NameFlaw → String
  | .empty => "key name may not be empty"
  | .reserved => "`default' is not a legal key name"
  | .characters => "key names may contain only A-Z, a-z, 0-9, '-', and '_'"
  | .tooLong => "key name is too long"
  | .reported text => text

/-- The message for a refused key name. -/
def nameRefusal (name reason : String) : String :=
  "invalid key name " ++ Text.quoted name ++ ": " ++ reason

def Malformation.text : Malformation → String
  | .truncated context => s!"{context}: truncated"
  | .wordLength context length => s!"{context}: u32 field has length {length}"
  | .fixedLength context expected length =>
    s!"{context}: expected {expected}-byte field, found {length}"
  | .fieldTooLong context id length => s!"{context}: field {id} too long ({length} bytes)"
  | .missingField => "key entry is missing a required field"
  | .trailingData expected => s!"legacy key: trailing data after {expected} bytes"
  | .notKeyFile => "not a git-crypt key file"
  | .nameFieldLength length => s!"key name field is {length} bytes"
  | .nameNotText => "key name is not UTF-8"
  | .nameRefused name reason => nameRefusal name reason
  | .duplicateVersion version => s!"duplicate key version {version}"
  | .unframedKey path =>
    s!"{path}: not a git-crypt key file (legacy keys must be converted with " ++
      "`git-crypt migrate-key`)"
  | .versionAbsent path version => s!"{path}: does not contain key version {version}"
  | .nameMismatch path name =>
    let shown := match name with
      | none => "None"
      | some n => "Some(" ++ Text.quoted n ++ ")"
    s!"{path}: key name {shown} does not match its directory"
  | .reported text => text

def Incompatibility.text : Incompatibility → String
  | .formatVersion found expected => s!"key file format version {found}, expected {expected}"
  | .criticalField context id => s!"{context}: unknown critical field {id}"
  | .reported text => text

def MissingKey.text : MissingKey → String
  | .version owner v => s!"key version {v} of {owner} is not available"
  | .noEntries owner => s!"key file {owner} has no entries"
  | .noCopy owner v =>
    s!"no wrapped copy of key {owner} version {v} for any local identity"
  | .noIdentity lastPlace =>
    "no age identity found. Tried: $GITCRYPT_AGE_IDENTITY_FILE, $GITCRYPT_AGE_IDENTITY, " ++
      s!"config path, and {lastPlace}"
  | .noSecret service fingerprint => s!"no local {service} identity for {fingerprint}"
  | .reported text => text

def ConfigFlaw.text : ConfigFlaw → String
  | .notToml => "TOML parse error"
  | .emptyBuffer => "crypto.io_buffer_size must be non-zero"
  | .inFile path flaw => s!"parsing {path}: config error: {flaw.text}"
  | .unreadableIdentity path fault => s!"reading age identity {path}: {fault.text}"
  | .reported text => text

namespace Error

/-- The label of an error's category in logs. -/
def category : Error → String
  | malformed _ => "malformed"
  | incompatible _ => "incompatible"
  | notEncrypted => "not_encrypted"
  | tampered => "tampered"
  | capacityExceeded => "capacity_exceeded"
  | keyNotFound _ => "key_not_found"
  | invalidKeyName _ _ => "invalid_key_name"
  | external _ _ => "external"
  | config _ => "config"
  | io _ => "io"
  | outputLength _ _ => "other"
  | versionsExhausted => "other"
  | other _ => "other"

/-- The message of an error. -/
def message : Error → String
  | malformed cause => s!"malformed data: {cause.text}"
  | incompatible cause =>
    s!"incompatible format: {cause.text} (you may need to upgrade git-crypt)"
  | notEncrypted => "input is not encrypted"
  | tampered => "file has been tampered with"
  | capacityExceeded => "input too large to encrypt securely"
  | keyNotFound cause => s!"key not found: {cause.text}"
  | invalidKeyName name flaw => nameRefusal name flaw.reason
  | external service text => s!"external failure ({service}): {text}"
  | config flaw => s!"config error: {flaw.text}"
  | io fault => s!"I/O error: {fault.text}"
  | outputLength output input => s!"CTR output buffer is {output} bytes, input is {input}"
  | versionsExhausted => "key version space exhausted"
  | other text => text

/-- The messages of what caused the error, nearest first: a fault of a file or a stream is a cause
of its own. -/
def causes : Error → List String
  | io fault => [fault.text]
  | _ => []

end Error

end RepoSeal
