import RepoSeal.Error
import RepoSeal.Log

/-!
# RepoSeal — key wrappers

A key wrapper encrypts the bytes of a key file to one recipient, so that only that recipient's private
identity opens them again. A recipient is known by a fingerprint, which is also part of a file name.
All that a wrapper does is a function of its arguments: what it needs of chance is a seed that it is
given.
-/

namespace RepoSeal

structure Wrapper where
  /-- What the names of wrapped keys end in, behind a dot. -/
  suffix : String
  seedLength : Nat := 0
  /-- The fingerprint of a recipient, whose text is checked. -/
  fingerprint : String → Except Error String
  /-- Encrypts bytes for the recipient with a fingerprint. The flag tells that somebody vouches for
  the recipient. -/
  wrap : Octets seedLength → Bytes → String → Bool → Except Error Bytes
  wrapEvents : String → Bool → Log := fun _ _ => []
  secretFingerprints : Except Error (List String)
  /-- Decrypts a wrapped key with the private identity that has a fingerprint. -/
  unwrap : Bytes → String → Except Error Bytes

end RepoSeal
