/-!
# RepoSeal — digits and bits

Numbers as lists of bits, most significant first, and lists of digits of one width cut again into digits
of another width. Base64 and Bech32 are both such a cutting, from digits of eight bits.
-/

namespace RepoSeal.Text

/-- The last `width` bits of a number, most significant first. -/
def bitsOf (width n : Nat) : List Bool := ((List.range width).map n.testBit).reverse

/-- The number whose bits are given, most significant first. -/
def ofBits (bits : List Bool) : Nat := bits.foldl (fun n b => 2 * n + b.toNat) 0

/-- The whole digits of a list of bits, and the bits left over. -/
def cutBits (width : Nat) (bits : List Bool) : List Nat × List Bool :=
  if _h : width = 0 ∨ bits.length < width then ([], bits)
  else
    let (digits, rest) := cutBits width (bits.drop width)
    (ofBits (bits.take width) :: digits, rest)
termination_by bits.length
decreasing_by simp only [List.length_drop]; omega

/-- Digits cut into digits of another width, the last one filled up with zero bits. -/
def widen (width width' : Nat) (digits : List Nat) : List Nat :=
  let (whole, rest) := cutBits width' (digits.flatMap (bitsOf width))
  whole ++ if rest.isEmpty then [] else [ofBits (rest ++ List.replicate (width' - rest.length) false)]

/-- Digits cut into digits of another width. What is left over must be zero bits that fill up a
digit, so there is one way only to write what comes out. -/
def narrow? (width width' : Nat) (digits : List Nat) : Option (List Nat) :=
  let (whole, rest) := cutBits width' (digits.flatMap (bitsOf width))
  if rest.length < width && rest.all (!·) then some whole else none

def indexOf? {α : Type} [DecidableEq α] (x : α) (l : List α) : Option Nat :=
  let i := l.idxOf x
  if i < l.length then some i else none

end RepoSeal.Text
