import RepoSeal.Bytes
import RepoSeal.Text.Bits

/-!
# RepoSeal — Bech32

Bytes as a text that begins with a name for what they are and ends in a checksum. It is written in lower
case, and read in one case or the other.
-/

namespace RepoSeal.Text.Bech32

/-- The characters, by the value of their digit. -/
def alphabet : List Char := "qpzry9x8gf2tvdw0s3jn54khce6mua7l".toList

def generator : List Nat := [0x3b6a57b2, 0x26508e6d, 0x1ea119fa, 0x3d4233dd, 0x2a1462b3]

def step (r digit : Nat) : Nat :=
  let top := r >>> 25
  let shifted := ((r &&& 0x1ffffff) <<< 5) ^^^ digit
  (generator.zipIdx).foldl (fun acc (g, i) => if top.testBit i then acc ^^^ g else acc) shifted

def remainder (digits : List Nat) : Nat := digits.foldl step 1

/-- The digits that stand for the name in the checksum. -/
def nameDigits (name : List Char) : List Nat :=
  name.map (·.toNat >>> 5) ++ [0] ++ name.map (·.toNat &&& 31)

def checksumLength : Nat := 6

/-- The digits that give a list of digits the remainder one. -/
def checksum (name : List Char) (digits : List Nat) : List Nat :=
  let r := remainder (nameDigits name ++ digits ++ List.replicate checksumLength 0) ^^^ 1
  (List.range checksumLength).map fun i => (r >>> (5 * (5 - i))) &&& 31

def encode (name : String) (b : Bytes) : String :=
  let digits := widen 8 5 (b.map UInt8.toNat)
  let all := digits ++ checksum name.toList digits
  String.ofList (name.toList ++ '1' :: all.map fun d => alphabet.getD d 'q')

/-- The texts before and behind the last digit one. -/
def split? (cs : List Char) : Option (List Char × List Char) :=
  let behind := (cs.reverse.takeWhile (· != '1')).reverse
  if behind.length < cs.length then
    some (cs.take (cs.length - behind.length - 1), behind)
  else none

/-- Whether the letters of a text are all small or all capital. -/
def isOneCase (cs : List Char) : Bool := !(cs.any Char.isLower && cs.any Char.isUpper)

def isName (cs : List Char) : Bool :=
  !cs.isEmpty && cs.all (fun c => '!' ≤ c && c ≤ '~') && cs.length ≤ 83

def decode? (s : String) : Option (String × Bytes) := do
  let cs := s.toList
  let (name, text) ← split? cs
  if !(isName name && isOneCase cs) then none
  let digits ← text.mapM fun c => indexOf? c.toLower alphabet
  let name := name.map Char.toLower
  if digits.length < checksumLength || remainder (nameDigits name ++ digits) ≠ 1 then none
  let bytes ← narrow? 5 8 (digits.take (digits.length - checksumLength))
  return (String.ofList name, bytes.map .ofNat)

end RepoSeal.Text.Bech32
