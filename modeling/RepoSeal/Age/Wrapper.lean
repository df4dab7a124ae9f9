import RepoSeal.Age.File
import RepoSeal.Identity.Search
import RepoSeal.Sharing.Wrapper
import RepoSeal.Text.Bech32
import RepoSeal.Text.Lines

/-!
# RepoSeal — wrapping keys with age

Keys are wrapped as age files. A recipient is known by the text of the public key, and a private
identity by the text of the private key; both are Bech32.
-/

namespace RepoSeal.Age

/-! ## Texts of keys -/

def recipientName : String := "age"

def identityName : String := "age-secret-key-"

/-- The bytes that a text writes under a name, of which there must be thirty-two. -/
def readKey (name : String) (length : KeyFlaw) (s : String) : Except KeyFlaw (Octets 32) :=
  match Text.Bech32.decode? s with
  | none => .error .encoding
  | some (found, b) =>
    if found ≠ name then .error .kind
    else match Octets.ofList? 32 b with
      | some key => .ok key
      | none => .error length

def readRecipient (s : String) : Except KeyFlaw X25519.PublicKey :=
  readKey recipientName .recipientLength s

def writeRecipient (key : X25519.PublicKey) : String := Text.Bech32.encode recipientName key.toList

def readIdentity (s : String) : Except KeyFlaw X25519.PrivateKey :=
  readKey identityName .identityLength s

/-- The fingerprint of an identity: the text of its public key. -/
def fingerprintOf (identity : X25519.PrivateKey) : String :=
  writeRecipient (X25519.publicKey identity)

def service : String := "age"

/-- The public key of a recipient, whose text may be surrounded by white space. -/
def parseRecipient (recipient : String) : Except Error X25519.PublicKey :=
  (readRecipient (Text.trim recipient)).mapError fun flaw =>
    .external service s!"invalid recipient {Text.quoted recipient}: {flaw.text}"

/-! ## Identity files -/

/-- The lines of an identity file that hold an identity. -/
def identityLines (text : String) : List String :=
  ((Text.lines text).map Text.trim).filter fun line => !line.isEmpty && line.front ≠ '#'

/-- The identities on some lines, which are counted from `number` on. -/
def readIdentityLines (number : Nat) : List String → Except String (List X25519.PrivateKey)
  | [] => .ok []
  | line :: rest =>
    match readIdentity line with
    | .error flaw => .error s!"identity #{number}: {flaw.text}"
    | .ok identity => (readIdentityLines (number + 1) rest).map (identity :: ·)

/-- The identities in a text that was found. There must be at least one. -/
def readIdentities (found : FoundIdentity) : Except Error (List X25519.PrivateKey) :=
  match readIdentityLines 1 (identityLines found.text) with
  | .error text => .error (.external service s!"{found.origin}: {text}")
  | .ok [] => .error (.external service s!"{found.origin}: no X25519 identities found")
  | .ok identities => .ok identities

/-- The event that tells of identities that have been read. -/
def loadedEvent (found : FoundIdentity) (identities : List X25519.PrivateKey) : LogEvent :=
  ⟨.debug, .wrapping, "loaded age identities",
    [("source", .text found.origin), ("count", .number identities.length)]⟩

/-! ## The wrapper -/

/-- The event that tells of a wrapping. Vouching for a recipient makes no other difference. -/
def wrapEvents (recipient : String) (trusted : Bool) : Log :=
  match parseRecipient recipient with
  | .ok key =>
    [⟨.debug, .wrapping, "wrapping key for recipient",
      [("recipient", .text (writeRecipient key)), ("trusted", .flag trusted)]⟩]
  | .error _ => []

/-- Decrypts a file with the identity that has a fingerprint. -/
def unwrapWith (scheme : Scheme) (identities : List X25519.PrivateKey) (data : Bytes)
    (fingerprint : String) : Except Error Bytes :=
  match identities.find? (fingerprintOf · = fingerprint) with
  | none => .error (.keyNotFound (.noSecret service fingerprint))
  | some identity => (scheme.decrypt identity data).mapError fun flaw => .external service flaw.text

/-- The wrapper of a scheme with some private identities, possibly none. -/
def wrapperWith (scheme : Scheme) (identities : List X25519.PrivateKey) : Wrapper where
  suffix := "age"
  seedLength := Chance.length
  fingerprint recipient := (parseRecipient recipient).map writeRecipient
  wrap seed plaintext recipient _ :=
    (parseRecipient recipient).map fun key => scheme.encrypt (.ofSeed seed) key plaintext
  wrapEvents
  secretFingerprints := .ok (identities.map fingerprintOf)
  unwrap data fingerprint := unwrapWith scheme identities data fingerprint

def wrapper (identities : List X25519.PrivateKey) : Wrapper := wrapperWith .standard identities

/-- How the wrapper with some identities is shown: without anything private. -/
def display (identities : List X25519.PrivateKey) : String :=
  "AgeWrapper \x7b identities: " ++ Text.quotedList (identities.map fingerprintOf) ++ " \x7d"

end RepoSeal.Age
