import RepoSeal.Bytes

/-!
# RepoSeal — ChaCha20 with Poly1305

Authenticated encryption: the stream cipher ChaCha20 hides a plaintext, and a tag made by the one-time
authenticator Poly1305 shows whether what arrives is what was sent.
-/

namespace RepoSeal.ChaCha

abbrev Key := Octets 32

/-- What must never be used twice under one key. -/
abbrev Nonce := Octets 12

/-! ## The stream cipher -/

abbrev Matrix := Vector UInt32 16

/-- A word turned left by `k` places. -/
def turnLeft (w k : UInt32) : UInt32 := (w <<< k) ||| (w >>> (32 - k))

/-- Adds one word of a matrix to another, and turns a third one that is combined with the sum. -/
def mixWords (m : Matrix) (a b d : Fin 16) (k : UInt32) : Matrix :=
  let m := m.set a (m.get a + m.get b)
  m.set d (turnLeft (m.get d ^^^ m.get a) k)

def quarterRound (m : Matrix) (a b c d : Fin 16) : Matrix :=
  mixWords (mixWords (mixWords (mixWords m a b d 16) c d b 12) a b d 8) c d b 7

/-- Mixes the columns of a matrix, then its diagonals. -/
def doubleRound (m : Matrix) : Matrix :=
  let m := quarterRound m 0 4 8 12
  let m := quarterRound m 1 5 9 13
  let m := quarterRound m 2 6 10 14
  let m := quarterRound m 3 7 11 15
  let m := quarterRound m 0 5 10 15
  let m := quarterRound m 1 6 11 12
  let m := quarterRound m 2 7 8 13
  quarterRound m 3 4 9 14

/-- The word at a place of a byte string, least significant byte first. -/
def wordAt (b : Bytes) (i : Nat) : UInt32 := .ofNat (natOfLe ((b.drop (4 * i)).take 4))

/-- The words that every matrix begins with. -/
def mark : Bytes := utf8 "expand 32-byte k"

/-- The matrix of a key, a block number and a nonce. -/
def start (key : Key) (nonce : Nonce) (block : Nat) : Matrix :=
  let b := mark ++ key.toList ++ leBytes 4 block ++ nonce.toList
  Vector.ofFn fun i => wordAt b i.val

def keystreamBlock (key : Key) (nonce : Nonce) (block : Nat) : Bytes :=
  let m := start key nonce block
  let mixed := (List.range 10).foldl (fun m _ => doubleRound m) m
  (m.zipWith (· + ·) mixed).toList.flatMap fun w => leBytes 4 w.toNat

/-- The keystream from a block on, combined with a byte string. -/
def maskFrom (key : Key) (nonce : Nonce) (block : Nat) : List Bytes → Bytes
  | [] => []
  | piece :: rest =>
    xorBytes piece (keystreamBlock key nonce block) ++ maskFrom key nonce (block + 1) rest

/-- A byte string combined with the keystream; doing it twice gives the byte string back. -/
def mask (key : Key) (nonce : Nonce) (data : Bytes) : Bytes :=
  maskFrom key nonce 1 (piecesOf 64 data)

/-! ## The authenticator -/

def modulus : Nat := Nat.pow 2 130 - 5

/-- The factor of the authenticator: a number with some of its bits cleared. -/
def clamp (r : Nat) : Nat := r &&& 0x0ffffffc0ffffffc0ffffffc0fffffff

/-- The tag of a byte string under a key that is used once. -/
def tag (key data : Bytes) : Octets 16 :=
  let r := clamp (natOfLe (key.take 16))
  let sum := (piecesOf 16 data).foldl (fun acc piece => (acc + natOfLe (piece ++ [1])) * r % modulus) 0
  ⟨leBytes 16 (sum + natOfLe (key.drop 16)), length_leBytes _ _⟩

/-- A byte string filled up with zeros to a multiple of sixteen bytes. -/
def fill (data : Bytes) : Bytes := data ++ List.replicate ((16 - data.length % 16) % 16) 0

/-- The tag of a ciphertext, which also covers its length. -/
def tagOf (key : Key) (nonce : Nonce) (ciphertext : Bytes) : Octets 16 :=
  tag ((keystreamBlock key nonce 0).take 32)
    (fill ciphertext ++ leBytes 8 0 ++ leBytes 8 ciphertext.length)

/-! ## Both together -/

/-- Encrypts a plaintext; the tag comes behind it. -/
def lock (key : Key) (nonce : Nonce) (plaintext : Bytes) : Bytes :=
  let ciphertext := mask key nonce plaintext
  ciphertext ++ (tagOf key nonce ciphertext).toList

/-- Decrypts what `lock` made, if the tag is right. -/
def unlock? (key : Key) (nonce : Nonce) (data : Bytes) : Option Bytes :=
  if data.length < 16 then none
  else
    let ciphertext := data.take (data.length - 16)
    if (tagOf key nonce ciphertext).toList = data.drop (data.length - 16) then
      some (mask key nonce ciphertext)
    else none

/-- The nonce of a key that encrypts one thing only. -/
def zeroNonce : Nonce := .replicate 12 0

end RepoSeal.ChaCha
