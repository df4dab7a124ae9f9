/-!
# RepoSeal — byte strings

Everything the library reads, writes, hashes or encrypts is a list of bytes. `Octets n` is a byte
string whose length is part of its type, so a key or a nonce of the wrong length cannot be built.
Words go into byte strings with their most significant byte first.
-/

namespace RepoSeal

abbrev Bytes := List UInt8

/-- A byte string of length `n`. -/
structure Octets (n : Nat) where
  toList : Bytes
  length_toList : toList.length = n
deriving DecidableEq

namespace Octets

variable {n : Nat}

/-- Two byte strings of one length are equal when their bytes are. -/
@[ext] theorem ext {a b : Octets n} (h : a.toList = b.toList) : a = b := by
  cases a; cases b; cases h; rfl

/-- The byte string itself, if it has the wanted length. -/
def ofList? (n : Nat) (b : Bytes) : Option (Octets n) :=
  if h : b.length = n then some ⟨b, h⟩ else none

theorem ofList?_toList (a : Octets n) : ofList? n a.toList = some a := by
  simp [ofList?, a.length_toList]

theorem toList_of_ofList? {b : Bytes} {a : Octets n} (h : ofList? n b = some a) : a.toList = b := by
  unfold ofList? at h
  split at h
  · cases h; rfl
  · cases h

/-- `n` copies of one byte. -/
def replicate (n : Nat) (x : UInt8) : Octets n := ⟨List.replicate n x, List.length_replicate⟩

/-- The first `m` bytes. -/
def take (m : Nat) (h : m ≤ n) (a : Octets n) : Octets m :=
  ⟨a.toList.take m, by simp [a.length_toList, h]⟩

/-- Two byte strings one after the other. -/
def append {m : Nat} (a : Octets n) (b : Octets m) : Octets (n + m) :=
  ⟨a.toList ++ b.toList, by simp [a.length_toList, b.length_toList]⟩

/-- The bytes of `b` up to length `n`, filled up with zeros. -/
def ofPrefix (n : Nat) (b : Bytes) : Octets n :=
  ⟨b.take n ++ List.replicate (n - b.length) 0, by simp; omega⟩

theorem toList_ofPrefix {b : Bytes} (h : b.length = n) : (ofPrefix n b).toList = b := by
  simp [ofPrefix, ← h]

end Octets

/-! ## Words -/

/-- The number whose base-256 digits, most significant first, are given. -/
def natOfBe (b : Bytes) : Nat := b.foldl (fun n x => n * 256 + x.toNat) 0

/-- The four bytes of a word, most significant first. -/
def be32 (w : UInt32) : Bytes :=
  [.ofNat (w.toNat / 0x1000000), .ofNat (w.toNat / 0x10000), .ofNat (w.toNat / 0x100), .ofNat w.toNat]

/-- The word whose bytes, most significant first, are given. -/
def ofBe32 (b : Bytes) : UInt32 := .ofNat (natOfBe b)

@[simp] theorem length_be32 (w : UInt32) : (be32 w).length = 4 := rfl

/-- A word is read back from its bytes. -/
theorem ofBe32_be32 (w : UInt32) : ofBe32 (be32 w) = w := by
  have hw : w.toNat < 2 ^ 32 := w.toNat_lt
  have h : natOfBe (be32 w) = w.toNat := by
    simp only [natOfBe, be32, List.foldl, UInt8.toNat_ofNat']
    omega
  simp [ofBe32, h]

/-- The number whose base-256 digits, least significant first, are given. -/
def natOfLe (b : Bytes) : Nat := b.foldr (fun x n => x.toNat + 256 * n) 0

/-- The last `count` base-256 digits of a number, least significant first. -/
def leBytes (count n : Nat) : Bytes := (List.range count).map fun i => .ofNat (n / Nat.pow 256 i)

@[simp] theorem length_leBytes (count n : Nat) : (leBytes count n).length = count := by
  simp [leBytes]

/-- The last `count` base-256 digits of a number, most significant first. -/
def beBytes (count n : Nat) : Bytes := (leBytes count n).reverse

@[simp] theorem length_beBytes (count n : Nat) : (beBytes count n).length = count := by
  simp [beBytes]

/-! ## Combining byte strings -/

/-- The bytes of `a` and `b` combined by exclusive or, as far as both reach. -/
def xorBytes (a b : Bytes) : Bytes := List.zipWith (· ^^^ ·) a b

/-- `b` cut into pieces of `size` bytes, the last one possibly shorter. -/
def piecesOf (size : Nat) (b : Bytes) : List Bytes :=
  match b with
  | [] => []
  | x :: rest => (x :: rest.take (size - 1)) :: piecesOf size (rest.drop (size - 1))
termination_by b.length
decreasing_by simp only [List.length_drop, List.length_cons]; omega

/-! ## Hexadecimal text -/

/-- The hexadecimal digit of a value below sixteen, in lower case. -/
def hexDigit (n : Nat) : Char :=
  Char.ofNat (if n < 10 then 48 + n else 87 + n)

def hexText (b : Bytes) : String :=
  String.ofList (b.flatMap fun x => [hexDigit (x.toNat / 16), hexDigit (x.toNat % 16)])

/-- The bytes of a text in UTF-8. -/
def utf8 (s : String) : Bytes := s.toUTF8.data.toList

/-- The text whose UTF-8 bytes are given, if they are well formed. -/
def ofUtf8? (b : Bytes) : Option String := String.fromUTF8? ⟨b.toArray⟩

end RepoSeal
