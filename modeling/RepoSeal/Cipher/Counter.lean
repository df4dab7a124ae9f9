import RepoSeal.Cipher.Aes
import RepoSeal.Error
import RepoSeal.Stream.Source
import RepoSeal.Stream.Sink

/-!
# RepoSeal — counter mode

A key and a nonce determine a keystream: byte `p` is byte `p % 16` of the encrypted counter block
`nonce ++ be32 (p / 16)`. Encryption and decryption both combine data with the keystream by exclusive
or. A running cipher keeps the pad of the current block between calls, and refuses data that would
run past 2³² blocks, where counter values would come round again.
-/

namespace RepoSeal.Counter

/-- The part of the counter block that stays the same. -/
abbrev Nonce := Octets 12

/-- The most bytes that one keystream may cover: 2³² blocks. -/
def capacity : Nat := UInt32.size * 16

/-! ## The keystream -/

def counterBlock (nonce : Nonce) (index : Nat) : Aes.Block :=
  ⟨nonce.toList ++ be32 (.ofNat index), by simp [nonce.length_toList]⟩

def keystreamByte (key : Aes.Key) (nonce : Nonce) (position : Nat) : UInt8 :=
  (Aes.encrypt key (counterBlock nonce (position / 16))).toList.getD (position % 16) 0

/-- The first `n` bytes of the keystream. -/
def keystream (key : Aes.Key) (nonce : Nonce) (n : Nat) : Bytes :=
  (List.range n).map (keystreamByte key nonce)

/-- A byte string combined with the keystream from its start. -/
def mask (key : Aes.Key) (nonce : Nonce) (data : Bytes) : Bytes :=
  xorBytes data (keystream key nonce data.length)

/-! ## The running cipher -/

structure Cipher where
  keys : Aes.RoundKeys
  nonce : Nonce
  /-- The encrypted counter block of the byte before this one, if there was one. -/
  pad : Bytes
  position : Nat

namespace Cipher

def start (key : Aes.Key) (nonce : Nonce) : Cipher :=
  { keys := Aes.expandKey key, nonce, pad := [], position := 0 }

/-- Combines the next byte with the keystream. The pad is renewed at the start of every block. -/
def step (c : Cipher) (x : UInt8) : UInt8 × Cipher :=
  let offset := c.position % 16
  let pad :=
    if offset = 0 then (c.keys.encrypt (counterBlock c.nonce (c.position / 16))).toList else c.pad
  (x ^^^ pad.getD offset 0, { c with pad, position := c.position + 1 })

/-- Combines `data` with the keystream byte by byte, after the output `out`. -/
def run (c : Cipher) (data : Bytes) (out : Array UInt8) : Bytes × Cipher :=
  match data with
  | [] => (out.toList, c)
  | x :: rest =>
    let (y, c') := c.step x
    run c' rest (out.push y)

/-- Combines `data` with the keystream, unless the stream would grow past its capacity. -/
def process (c : Cipher) (data : Bytes) : Except Error (Bytes × Cipher) :=
  if capacity - c.position < data.length then .error .capacityExceeded
  else .ok (c.run data #[])

/-- Combines `data` with the keystream into an output of `size` bytes, which must be as many. -/
def processInto (c : Cipher) (data : Bytes) (size : Nat) : Except Error (Bytes × Cipher) :=
  if data.length ≠ size then .error (.outputLength size data.length)
  else c.process data

/-- How a cipher is shown: key material is left out. -/
def display (c : Cipher) : String :=
  "AesCtrEncryptor \x7b nonce: " ++ Text.quoted (hexText c.nonce.toList) ++
    s!", byte_counter: {c.position} \x7d"

end Cipher

/-- How a block cipher is shown: key material is left out. -/
def blockCipherDisplay : String := "AesEcbEncryptor \x7b key: \"[REDACTED]\" \x7d"

/-! ## Whole streams -/

def streamPiece : Nat := 1024

/-- Reads pieces from the source, combines them with the keystream and writes them, to the end. -/
def pump (c : Cipher) (source : Source) (sink : Sink) : Except Error Nat × Sink :=
  match _h : source.readSome streamPiece with
  | (.error fault, _) => (.error (.io fault), sink)
  | (.ok [], _) => (.ok c.position, sink)
  | (.ok (x :: piece), source') =>
    match c.process (x :: piece) with
    | .error e => (.error e, sink)
    | .ok (out, c') =>
      match sink.write out with
      | (.error fault, sink') => (.error (.io fault), sink')
      | (.ok _, sink') => pump c' source' sink'
termination_by source.rest.length
decreasing_by exact Source.readSome_lt _h

/-- Combines everything from the source with the keystream. The result is the number of bytes. -/
def processStream (key : Aes.Key) (nonce : Nonce) (source : Source) (sink : Sink) :
    Except Error Nat × Sink :=
  pump (.start key nonce) source sink

end RepoSeal.Counter
