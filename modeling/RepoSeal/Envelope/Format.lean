import RepoSeal.Key.File

/-!
# RepoSeal — envelopes

An envelope is an encrypted file: a magic, a nonce, and the plaintext combined with the keystream of
the key under that nonce. The nonce is the front of the plaintext's keyed digest, so the envelope of a
plaintext is determined by the key (`enclose`), and an envelope is authentic when the bytes found under
its nonce have that nonce (`isAuthentic`).
-/

namespace RepoSeal.Envelope

/-- The bytes that every envelope begins with. -/
def magic : Bytes := utf8 "\x00GITCRYPT\x00"

/-- The length of magic and nonce. -/
def headerLength : Nat := 22

/-- The key version under which envelopes are opened: an envelope does not say which one it is. -/
def keyVersion : UInt32 := 0

/-- Whether a byte string begins with a complete envelope header. -/
def isEncrypted (data : Bytes) : Bool :=
  (data.take headerLength).length = headerLength && magic.isPrefixOf data

/-- The nonce of a plaintext under a digest key. -/
def nonceFor (key : Hmac.Key) (plaintext : Bytes) : Counter.Nonce :=
  Hmac.nonceOf (Hmac.digest key plaintext)

/-- The envelope of a plaintext. -/
def enclose (entry : KeyEntry) (plaintext : Bytes) : Bytes :=
  let nonce := nonceFor entry.digestKey plaintext
  magic ++ nonce.toList ++ Counter.mask entry.cipherKey nonce plaintext

/-- The nonce in an envelope's header. -/
def nonceIn (envelope : Bytes) : Counter.Nonce := Octets.ofPrefix 12 (envelope.drop magic.length)

/-- The bytes under an envelope's nonce, authentic or not. -/
def reveal (entry : KeyEntry) (envelope : Bytes) : Bytes :=
  Counter.mask entry.cipherKey (nonceIn envelope) (envelope.drop headerLength)

/-- Whether the bytes found in an envelope have the nonce they were found under. -/
def isAuthentic (entry : KeyEntry) (envelope : Bytes) : Bool :=
  nonceFor entry.digestKey (reveal entry envelope) == nonceIn envelope

/-! ## Options -/

/-- How data is held and moved; none of it shows in an envelope. -/
structure Options where
  /-- How much of a plaintext is held in memory before the rest goes to a scratch file. -/
  spillThreshold : Nat := 8 * 1024 * 1024
  /-- Plaintexts that reach this length are refused. -/
  maxPlaintext : Nat := Counter.capacity
  /-- How many bytes a stream is read in. -/
  pieceSize : Nat := 1024
deriving DecidableEq, Repr

/-- The number of bytes in a read: never none. -/
def Options.piece (o : Options) : Nat := max o.pieceSize 1

theorem Options.piece_pos (o : Options) : 0 < o.piece := by
  unfold piece
  omega

/-- What a run over streams brings: its result, what the output holds, and what happened. -/
structure Run (α : Type) where
  result : Except Error α
  sink : Sink
  log : Log := []

end RepoSeal.Envelope
