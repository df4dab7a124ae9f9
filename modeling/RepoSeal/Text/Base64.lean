import RepoSeal.Bytes
import RepoSeal.Text.Bits

/-!
# RepoSeal — Base64

Bytes written with sixty-four characters, without padding. Every byte string has exactly one such form,
and no other is read.
-/

namespace RepoSeal.Text.Base64

/-- The characters, by the value of their digit. -/
def alphabet : Bytes := utf8 "ABCDEFGHIJKLMNOPQRSTUVWXYZabcdefghijklmnopqrstuvwxyz0123456789+/"

def isDigit (x : UInt8) : Bool := alphabet.contains x

def encode (b : Bytes) : Bytes :=
  (widen 8 6 (b.map UInt8.toNat)).map fun n => alphabet.getD n 0

def decode? (text : Bytes) : Option Bytes := do
  let digits ← text.mapM fun x => indexOf? x alphabet
  let bytes ← narrow? 6 8 digits
  return bytes.map .ofNat

end RepoSeal.Text.Base64
