import RepoSeal.Bytes

/-!
# RepoSeal — AES-256

The block cipher AES with a key of 32 bytes, forward direction only: counter mode never needs the
inverse. A block is four columns of four bytes. Bytes are elements of the field of 256 elements with
the reduction polynomial x⁸ + x⁴ + x³ + x + 1.
-/

namespace RepoSeal.Aes

abbrev Block := Octets 16

abbrev Key := Octets 32

/-! ## The field -/

def double (a : UInt8) : UInt8 :=
  (a <<< 1) ^^^ (if a &&& 0x80 = 0 then 0 else 0x1b)

/-- The product of two field elements: the multiples of `a` for the set bits of `b`, added up. -/
def product (a b : UInt8) : UInt8 :=
  ((List.range 8).foldl (fun (acc, m) i =>
    ((if (b >>> .ofNat i) &&& 1 = 0 then acc else acc ^^^ m), double m)) ((0 : UInt8), a)).1

/-- The 254th power: the inverse of an element other than zero, and zero for zero. -/
def inverse (a : UInt8) : UInt8 :=
  ((List.range 7).foldl (fun (acc, sq) _ =>
    let sq := product sq sq
    (product acc sq, sq)) ((1 : UInt8), a)).1

/-- The bits of a byte turned left by `k` places. -/
def turnLeft (b : UInt8) (k : UInt8) : UInt8 := (b <<< k) ||| (b >>> (8 - k))

/-- The substitution of a byte: inversion in the field, then an affine map over the bits. -/
def substitution (a : UInt8) : UInt8 :=
  let b := inverse a
  b ^^^ turnLeft b 1 ^^^ turnLeft b 2 ^^^ turnLeft b 3 ^^^ turnLeft b 4 ^^^ 0x63

/-- The substitution of every byte, computed once. -/
def substitutionTable : Array UInt8 := Array.ofFn fun i : Fin 256 => substitution (.ofNat i.val)

/-- The substitution of a byte, looked up. -/
def substitute (a : UInt8) : UInt8 := substitutionTable.getD a.toNat 0

/-! ## Columns and blocks -/

structure Column where
  (b0 b1 b2 b3 : UInt8)
deriving DecidableEq

namespace Column

def add (a b : Column) : Column := ⟨a.b0 ^^^ b.b0, a.b1 ^^^ b.b1, a.b2 ^^^ b.b2, a.b3 ^^^ b.b3⟩

def sub (a : Column) : Column :=
  ⟨substitute a.b0, substitute a.b1, substitute a.b2, substitute a.b3⟩

/-- The bytes moved up by one place, the first one going to the end. -/
def turn (a : Column) : Column := ⟨a.b1, a.b2, a.b3, a.b0⟩

/-- The column times the circulant matrix with first row 2 3 1 1. -/
def mix (a : Column) : Column :=
  let all := a.b0 ^^^ a.b1 ^^^ a.b2 ^^^ a.b3
  ⟨a.b0 ^^^ all ^^^ double (a.b0 ^^^ a.b1), a.b1 ^^^ all ^^^ double (a.b1 ^^^ a.b2),
    a.b2 ^^^ all ^^^ double (a.b2 ^^^ a.b3), a.b3 ^^^ all ^^^ double (a.b3 ^^^ a.b0)⟩

def toList (a : Column) : Bytes := [a.b0, a.b1, a.b2, a.b3]

/-- The column of the first four bytes of a byte string. -/
def ofList : Bytes → Column
  | [a, b, c, d] => ⟨a, b, c, d⟩
  | a :: b :: c :: d :: _ => ⟨a, b, c, d⟩
  | _ => ⟨0, 0, 0, 0⟩

end Column

/-- Four columns: a block being encrypted, or a round key. -/
structure State where
  (c0 c1 c2 c3 : Column)
deriving DecidableEq

namespace State

def add (s k : State) : State := ⟨s.c0.add k.c0, s.c1.add k.c1, s.c2.add k.c2, s.c3.add k.c3⟩

/-- Substitutes every byte and shifts row `r` left by `r` columns. -/
def subShift (s : State) : State :=
  ⟨⟨substitute s.c0.b0, substitute s.c1.b1, substitute s.c2.b2, substitute s.c3.b3⟩,
    ⟨substitute s.c1.b0, substitute s.c2.b1, substitute s.c3.b2, substitute s.c0.b3⟩,
    ⟨substitute s.c2.b0, substitute s.c3.b1, substitute s.c0.b2, substitute s.c1.b3⟩,
    ⟨substitute s.c3.b0, substitute s.c0.b1, substitute s.c1.b2, substitute s.c2.b3⟩⟩

def mix (s : State) : State := ⟨s.c0.mix, s.c1.mix, s.c2.mix, s.c3.mix⟩

def toList (s : State) : Bytes := s.c0.toList ++ s.c1.toList ++ s.c2.toList ++ s.c3.toList

theorem length_toList (s : State) : s.toList.length = 16 := rfl

def ofList (b : Bytes) : State :=
  ⟨.ofList b, .ofList (b.drop 4), .ofList (b.drop 8), .ofList (b.drop 12)⟩

end State

/-! ## The key schedule -/

/-- The round keys after the first, in order: one for every inner round, then the last. -/
structure RoundKeys where
  first : State
  inner : List State
  last : State

/-- The round key that follows `a` and `b` at an even place. -/
def nextEven (constant : UInt8) (a b : State) : State :=
  let t := b.c3.turn.sub
  let w0 := (a.c0.add t).add ⟨constant, 0, 0, 0⟩
  let w1 := a.c1.add w0
  let w2 := a.c2.add w1
  ⟨w0, w1, w2, a.c3.add w2⟩

/-- The round key that follows `b` and the even key `a` at an odd place. -/
def nextOdd (b a : State) : State :=
  let w0 := b.c0.add a.c3.sub
  let w1 := b.c1.add w0
  let w2 := b.c2.add w1
  ⟨w0, w1, w2, b.c3.add w2⟩

/-- The next `n` pairs of round keys after the pair `a`, `b`. -/
def nextPairs (constant : UInt8) (a b : State) : Nat → List (State × State)
  | 0 => []
  | n + 1 =>
    let a' := nextEven constant a b
    let b' := nextOdd b a'
    (a', b') :: nextPairs (double constant) a' b' n

def expandKey (key : Key) : RoundKeys :=
  let a := State.ofList key.toList
  let b := State.ofList (key.toList.drop 16)
  let pairs := nextPairs 1 a b 7
  let inner := pairs.take 6 |>.flatMap fun (x, y) => [x, y]
  { first := a, inner := b :: inner, last := (pairs.getLast?.map Prod.fst).getD a }

/-! ## Encryption -/

def RoundKeys.encrypt (keys : RoundKeys) (block : Block) : Block :=
  let start := (State.ofList block.toList).add keys.first
  let inner := keys.inner.foldl (fun s k => s.subShift.mix.add k) start
  let s := inner.subShift.add keys.last
  ⟨s.toList, s.length_toList⟩

def encrypt (key : Key) (block : Block) : Block := (expandKey key).encrypt block

end RepoSeal.Aes
