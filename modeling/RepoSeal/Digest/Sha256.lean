import RepoSeal.Digest.Sha1

/-!
# RepoSeal — SHA-256, HMAC and key derivation

The hash SHA-256, the keyed digest over it, and the derivation of a key from a secret, a salt and a
label that says what the key is for.
-/

namespace RepoSeal.Sha256

/-- The chaining value: eight words. -/
structure Chain where
  (a b c d e f g h : UInt32)
deriving DecidableEq

namespace Chain

def initial : Chain :=
  ⟨0x6a09e667, 0xbb67ae85, 0x3c6ef372, 0xa54ff53a, 0x510e527f, 0x9b05688c, 0x1f83d9ab, 0x5be0cd19⟩

def add (x y : Chain) : Chain :=
  ⟨x.a + y.a, x.b + y.b, x.c + y.c, x.d + y.d, x.e + y.e, x.f + y.f, x.g + y.g, x.h + y.h⟩

def toList (x : Chain) : Bytes :=
  be32 x.a ++ be32 x.b ++ be32 x.c ++ be32 x.d ++ be32 x.e ++ be32 x.f ++ be32 x.g ++ be32 x.h

theorem length_toList (x : Chain) : x.toList.length = 32 := rfl

end Chain

def constants : Array UInt32 := #[
  0x428a2f98, 0x71374491, 0xb5c0fbcf, 0xe9b5dba5, 0x3956c25b, 0x59f111f1, 0x923f82a4, 0xab1c5ed5,
  0xd807aa98, 0x12835b01, 0x243185be, 0x550c7dc3, 0x72be5d74, 0x80deb1fe, 0x9bdc06a7, 0xc19bf174,
  0xe49b69c1, 0xefbe4786, 0x0fc19dc6, 0x240ca1cc, 0x2de92c6f, 0x4a7484aa, 0x5cb0a9dc, 0x76f988da,
  0x983e5152, 0xa831c66d, 0xb00327c8, 0xbf597fc7, 0xc6e00bf3, 0xd5a79147, 0x06ca6351, 0x14292967,
  0x27b70a85, 0x2e1b2138, 0x4d2c6dfc, 0x53380d13, 0x650a7354, 0x766a0abb, 0x81c2c92e, 0x92722c85,
  0xa2bfe8a1, 0xa81a664b, 0xc24b8b70, 0xc76c51a3, 0xd192e819, 0xd6990624, 0xf40e3585, 0x106aa070,
  0x19a4c116, 0x1e376c08, 0x2748774c, 0x34b0bcb5, 0x391c0cb3, 0x4ed8aa4a, 0x5b9cca4f, 0x682e6ff3,
  0x748f82ee, 0x78a5636f, 0x84c87814, 0x8cc70208, 0x90befffa, 0xa4506ceb, 0xbef9a3f7, 0xc67178f2]

/-- A word turned right by `k` places. -/
def turnRight (w k : UInt32) : UInt32 := (w >>> k) ||| (w <<< (32 - k))

/-- The sixty-four words of a block: each after the first sixteen depends on four before it. -/
def schedule (block : Bytes) : Array UInt32 :=
  (List.range 48).foldl (fun w i =>
    let x := w.getD (i + 1) 0
    let y := w.getD (i + 14) 0
    w.push (w.getD i 0 + (turnRight x 7 ^^^ turnRight x 18 ^^^ (x >>> 3)) + w.getD (i + 9) 0 +
      (turnRight y 17 ^^^ turnRight y 19 ^^^ (y >>> 10))))
    (Sha1.words block).toArray

def roundStep (x : Chain) (k w : UInt32) : Chain :=
  let t₁ := x.h + (turnRight x.e 6 ^^^ turnRight x.e 11 ^^^ turnRight x.e 25) +
    ((x.e &&& x.f) ^^^ ((~~~x.e) &&& x.g)) + k + w
  let t₂ := (turnRight x.a 2 ^^^ turnRight x.a 13 ^^^ turnRight x.a 22) +
    ((x.a &&& x.b) ^^^ (x.a &&& x.c) ^^^ (x.b &&& x.c))
  ⟨t₁ + t₂, x.a, x.b, x.c, x.d + t₁, x.e, x.f, x.g⟩

/-- Takes one block of 64 bytes into the chaining value. -/
def compress (x : Chain) (block : Bytes) : Chain :=
  let w := schedule block
  x.add ((List.range 64).foldl (fun y i => roundStep y (constants.getD i 0) (w.getD i 0)) x)

/-- The digest of a byte string, which is filled up to whole blocks as for SHA-1. -/
def digest (data : Bytes) : Octets 32 :=
  let chain := (piecesOf 64 (data ++ Sha1.State.padding data.length)).foldl compress .initial
  ⟨chain.toList, chain.length_toList⟩

/-- The keyed digest of a byte string under a key of at most one block. -/
def keyed (key data : Bytes) : Octets 32 :=
  let masked (x : UInt8) : Bytes :=
    key.map (· ^^^ x) ++ List.replicate (64 - key.length) x
  digest (masked 0x5c ++ (digest (masked 0x36 ++ data)).toList)

def derive (salt label secret : Bytes) : Octets 32 :=
  keyed (keyed salt secret).toList (label ++ [1])

end RepoSeal.Sha256
