import RepoSeal.Bytes

/-!
# RepoSeal — SHA-1

The hash SHA-1 as a running state: whole blocks of 64 bytes go into the chaining value at once, and
the bytes of an unfinished block wait. How a message is cut into calls makes no difference
(`add_append`).
-/

namespace RepoSeal.Sha1

/-- The chaining value: five words. -/
structure Chain where
  (a b c d e : UInt32)
deriving DecidableEq

namespace Chain

def initial : Chain := ⟨0x67452301, 0xefcdab89, 0x98badcfe, 0x10325476, 0xc3d2e1f0⟩

def add (x y : Chain) : Chain := ⟨x.a + y.a, x.b + y.b, x.c + y.c, x.d + y.d, x.e + y.e⟩

def toList (x : Chain) : Bytes := be32 x.a ++ be32 x.b ++ be32 x.c ++ be32 x.d ++ be32 x.e

theorem length_toList (x : Chain) : x.toList.length = 20 := rfl

end Chain

/-- A word turned left by `k` places. -/
def turnLeft (w k : UInt32) : UInt32 := (w <<< k) ||| (w >>> (32 - k))

/-- The words of a byte string, four bytes each. -/
def words : Bytes → List UInt32
  | a :: b :: c :: d :: rest => ofBe32 [a, b, c, d] :: words rest
  | _ => []

/-- The eighty words of a block: each after the first sixteen depends on four before it. -/
def schedule (block : Bytes) : Array UInt32 :=
  (List.range 64).foldl (fun w i =>
    w.push (turnLeft (w.getD (i + 13) 0 ^^^ w.getD (i + 8) 0 ^^^ w.getD (i + 2) 0 ^^^ w.getD i 0) 1))
    (words block).toArray

def roundTerm (round : Nat) (b c d : UInt32) : UInt32 :=
  if round < 20 then ((b &&& c) ||| ((~~~b) &&& d)) + 0x5a827999
  else if round < 40 then (b ^^^ c ^^^ d) + 0x6ed9eba1
  else if round < 60 then ((b &&& c) ||| (b &&& d) ||| (c &&& d)) + 0x8f1bbcdc
  else (b ^^^ c ^^^ d) + 0xca62c1d6

def roundStep (x : Chain) (round : Nat) (w : UInt32) : Chain :=
  ⟨turnLeft x.a 5 + roundTerm round x.b x.c x.d + x.e + w, x.a, turnLeft x.b 30, x.c, x.d⟩

/-- Takes one block of 64 bytes into the chaining value. -/
def compress (x : Chain) (block : Bytes) : Chain :=
  let w := schedule block
  x.add ((List.range 80).foldl (fun y round => roundStep y round (w.getD round 0)) x)

/-- Takes every whole block into the chaining value; what is left is shorter than a block. -/
def absorb (x : Chain) (data : Bytes) : Chain × Bytes :=
  let block := data.take 64
  if block.length < 64 then (x, data) else absorb (compress x block) (data.drop 64)
termination_by data.length
decreasing_by
  simp only [block, List.length_take] at *
  simp only [List.length_drop]
  omega

structure State where
  chain : Chain
  waiting : Bytes
  total : Nat
deriving DecidableEq

namespace State

def start : State := { chain := .initial, waiting := [], total := 0 }

def add (s : State) (data : Bytes) : State :=
  let (chain, waiting) := absorb s.chain (s.waiting ++ data)
  { chain, waiting, total := s.total + data.length }

/-- The bytes that end the message: a one bit, zeros up to the end of a block, and the length in
bits in the last eight bytes. -/
def padding (total : Nat) : Bytes :=
  let bits := 8 * total
  0x80 :: List.replicate ((119 - total % 64) % 64) 0 ++
    be32 (.ofNat (bits / UInt32.size)) ++ be32 (.ofNat bits)

def finish (s : State) : Octets 20 :=
  let chain := (absorb s.chain (s.waiting ++ padding s.total)).1
  ⟨chain.toList, chain.length_toList⟩

end State

def digest (data : Bytes) : Octets 20 := (State.start.add data).finish

/-! ## Cutting a message makes no difference -/

/-- Whole blocks may be taken in before the rest of the message is known. -/
theorem absorb_append (x : Chain) (a b : Bytes) :
    absorb x (a ++ b) = absorb (absorb x a).1 ((absorb x a).2 ++ b) := by
  fun_induction absorb x a with
  | case1 x a => rfl
  | case2 x a block hlong ih =>
    have hlen : 64 ≤ a.length := by
      simp only [block, List.length_take] at hlong
      omega
    rw [← ih]
    conv => lhs; rw [absorb]
    simp only [List.length_take, List.length_append]
    rw [if_neg (by omega), List.take_append_of_le_length hlen, List.drop_append_of_le_length hlen]

/-- Two calls take in what one call with both parts does. -/
theorem State.add_append (s : State) (a b : Bytes) : s.add (a ++ b) = (s.add a).add b := by
  simp only [State.add, ← List.append_assoc, absorb_append s.chain (s.waiting ++ a) b,
    List.length_append, Nat.add_assoc]

end RepoSeal.Sha1
