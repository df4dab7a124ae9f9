import RepoSeal.Age.Header
import RepoSeal.Cipher.ChaCha
import RepoSeal.Curve.X25519
import RepoSeal.Digest.Sha256

/-!
# RepoSeal — age files

The content of an age file is encrypted under a key of its own, which the header holds once for every
recipient, encrypted so that only that recipient's identity finds it. The content comes in pieces, each
numbered, and the last one marked, so that pieces can neither be left out nor changed.
-/

namespace RepoSeal.Age

abbrev FileKey := Octets 16

/-! ## Recipients -/

/-- The kind of a recipient with a key on the curve. -/
def recipientKind : Bytes := utf8 "X25519"

def passphraseKind : Bytes := utf8 "scrypt"

/-- The key under which a file key is encrypted to a recipient. -/
def wrappingKey (ephemeral recipient : X25519.PublicKey) (shared : Octets 32) : ChaCha.Key :=
  Sha256.derive (ephemeral.toList ++ recipient.toList) (utf8 "age-encryption.org/v1/X25519")
    shared.toList

/-- The stanza of a recipient, made with a private key that is used once. -/
def wrapFileKey (once : X25519.PrivateKey) (recipient : X25519.PublicKey) (key : FileKey) :
    Stanza :=
  let ephemeral := X25519.publicKey once
  let wrapping := wrappingKey ephemeral recipient (X25519.exchange once recipient)
  { kind := recipientKind
    args := [Text.Base64.encode ephemeral.toList]
    body := ChaCha.lock wrapping ChaCha.zeroNonce key.toList }

/-- The file key in a stanza: none if the stanza is not for this identity. A stanza for a key on the
curve must be one that could have been written. -/
def unwrapStanza (identity : X25519.PrivateKey) (s : Stanza) : Option (Except Flaw FileKey) :=
  if s.kind ≠ recipientKind then none
  else
    match s.args with
    | [arg] =>
      match Header.decodeExactly 32 arg with
      | none => some (.error .header)
      | some ephemeral =>
        let shared := X25519.exchange identity ephemeral
        if s.body.length ≠ 32 || shared.toList.all (· == 0) then some (.error .header)
        else
          let wrapping := wrappingKey ephemeral (X25519.publicKey identity) shared
          ((ChaCha.unlock? wrapping ChaCha.zeroNonce s.body).bind (Octets.ofList? 16)).map .ok
    | _ => some (.error .header)

def headerTag (key : FileKey) (covered : Bytes) : Bytes :=
  (Sha256.keyed (Sha256.derive [] (utf8 "header") key.toList).toList covered).toList

/-! ## Content -/

def contentKey (key : FileKey) (nonce : Bytes) : ChaCha.Key :=
  Sha256.derive nonce (utf8 "payload") key.toList

def pieceLength : Nat := 64 * 1024

/-- The nonce of a piece: its number and the mark of the last one. -/
def pieceNonce (number : Nat) (last : Bool) : ChaCha.Nonce :=
  ⟨beBytes 11 number ++ [if last then 1 else 0], by simp⟩

def lockPieces (key : ChaCha.Key) (number : Nat) : List Bytes → Bytes
  | [] => ChaCha.lock key (pieceNonce number true) []
  | [piece] => ChaCha.lock key (pieceNonce number true) piece
  | piece :: rest => ChaCha.lock key (pieceNonce number false) piece ++ lockPieces key (number + 1) rest

/-- Decrypts pieces. A short piece is the last one, and a full piece may be. -/
def unlockPieces (key : ChaCha.Key) (number : Nat) : List Bytes → Except Flaw Bytes
  | [] => .error .truncated
  | piece :: rest =>
    let full := piece.length = pieceLength + 16
    match if full then ChaCha.unlock? key (pieceNonce number false) piece else none with
    | some b => (unlockPieces key (number + 1) rest).map (b ++ ·)
    | none =>
      match ChaCha.unlock? key (pieceNonce number true) piece with
      | none => .error .content
      | some b => if rest.isEmpty then .ok b else .error .trailing

/-! ## Files -/

structure Chance where
  key : FileKey
  once : X25519.PrivateKey
  nonce : Octets 16

def Chance.length : Nat := 64

def Chance.ofSeed (seed : Octets Chance.length) : Chance where
  key := seed.take 16 (by decide)
  once := .ofPrefix 32 (seed.toList.drop 16)
  nonce := .ofPrefix 16 (seed.toList.drop 48)

def encrypt (chance : Chance) (recipient : X25519.PublicKey) (content : Bytes) : Bytes :=
  let covered := Header.writeCovered [wrapFileKey chance.once recipient chance.key]
  covered ++ Header.writeTag (headerTag chance.key covered) ++ chance.nonce.toList ++
    lockPieces (contentKey chance.key chance.nonce.toList) 0 (piecesOf pieceLength content)

def isForPassphrase (s : Stanza) : Bool := s.kind == passphraseKind

def findFileKey (identity : X25519.PrivateKey) (stanzas : List Stanza) : Except Flaw FileKey :=
  match stanzas.findSome? (unwrapStanza identity) with
  | some r => r
  | none => .error .noMatch

def decrypt (identity : X25519.PrivateKey) (data : Bytes) : Except Flaw Bytes := do
  let (header, written, rest) ← Header.read data
  let nonce := rest.take 16
  if nonce.length < 16 then throw .short
  if header.stanzas.any isForPassphrase then
    throw (if header.stanzas.length = 1 then .passphrase else .header)
  let key ← findFileKey identity header.stanzas
  if headerTag key (Header.covered written) ≠ header.tag then throw .headerTag
  unlockPieces (contentKey key nonce) 0 (piecesOf (pieceLength + 16) (rest.drop 16))

/-- A way to encrypt bytes for whoever holds a private key. -/
structure Scheme where
  encrypt : Chance → X25519.PublicKey → Bytes → Bytes
  decrypt : X25519.PrivateKey → Bytes → Except Flaw Bytes

def Scheme.standard : Scheme := ⟨Age.encrypt, Age.decrypt⟩

end RepoSeal.Age
