import RepoSeal.Bytes
import RepoSeal.Text.Bits

/-!
# RepoSeal — X25519

The exchange of keys on the curve y² = x³ + 486662 x² + x over the field with 2²⁵⁵ − 19 elements. Points
are known by their x coordinate alone, and a private key is a number by which a point is multiplied:
what one side computes from its private key and the other's public key is what the other side computes
too.
-/

namespace RepoSeal.X25519

def prime : Nat := Nat.pow 2 255 - 19

def sub (a b : Nat) : Nat := (a + prime - b) % prime

def mul (a b : Nat) : Nat := a * b % prime

def add (a b : Nat) : Nat := (a + b) % prime

/-- The power of a field element, the exponent given by its bits, most significant first. -/
def power (a : Nat) (bits : List Bool) : Nat :=
  bits.foldl (fun acc bit => let sq := mul acc acc; if bit then mul sq a else sq) 1

/-- The inverse of a field element other than zero, and zero for zero. -/
def inverse (a : Nat) : Nat := power a (Text.bitsOf 255 (prime - 2))

/-- Two points on a ladder, each as a fraction: their difference is always the point to be
multiplied. -/
structure Ladder where
  (x₂ z₂ x₃ z₃ : Nat)

namespace Ladder

/-- Doubles the first point and adds it to the second. -/
def step (x : Nat) (l : Ladder) : Ladder :=
  let a := add l.x₂ l.z₂
  let b := sub l.x₂ l.z₂
  let aa := mul a a
  let bb := mul b b
  let e := sub aa bb
  let da := mul (sub l.x₃ l.z₃) a
  let cb := mul (add l.x₃ l.z₃) b
  let plus := add da cb
  let minus := sub da cb
  { x₂ := mul aa bb
    z₂ := mul e (add aa (mul 121665 e))
    x₃ := mul plus plus
    z₃ := mul x (mul minus minus) }

/-- The two points the other way round. -/
def swap (l : Ladder) : Ladder := ⟨l.x₃, l.z₃, l.x₂, l.z₂⟩

/-- One rung: the bit tells to which of the points the sum goes. -/
def rung (x : Nat) (l : Ladder) (bit : Bool) : Ladder :=
  if bit then (step x l.swap).swap else step x l

end Ladder

def multiply (scalar x : Nat) : Nat :=
  let l := (Text.bitsOf 255 scalar).foldl (Ladder.rung x) ⟨1, 0, x, 1⟩
  mul l.x₂ (inverse l.z₂)

abbrev PrivateKey := Octets 32

abbrev PublicKey := Octets 32

/-- The number that a private key stands for: a multiple of eight between 2²⁵⁴ and 2²⁵⁵. -/
def scalarOf (key : PrivateKey) : Nat :=
  natOfLe key.toList % Nat.pow 2 254 / 8 * 8 + Nat.pow 2 254

/-- The x coordinate that a public key stands for; its last bit does not count. -/
def coordinateOf (key : PublicKey) : Nat := natOfLe key.toList % Nat.pow 2 255 % prime

def exchange (key : PrivateKey) (other : PublicKey) : Octets 32 :=
  ⟨leBytes 32 (multiply (scalarOf key) (coordinateOf other)), length_leBytes _ _⟩

/-- The public key of the point that all private keys multiply. -/
def basePoint : PublicKey := ⟨leBytes 32 9, length_leBytes _ _⟩

def publicKey (key : PrivateKey) : PublicKey := exchange key basePoint

end RepoSeal.X25519
