import RepoSeal.Digest.Sha1
import RepoSeal.Cipher.Counter

/-!
# RepoSeal — HMAC-SHA1 and synthetic nonces

A keyed digest whose key is exactly one hash block. The nonce of an envelope is the front of the
digest of its plaintext, so equal plaintexts under one key have equal envelopes.
-/

namespace RepoSeal.Hmac

/-- A digest key: one hash block. -/
abbrev Key := Octets 64

structure State where
  inner : Sha1.State
  key : Key

namespace State

/-- The key with every byte combined with `x`. -/
def maskedKey (key : Key) (x : UInt8) : Bytes := key.toList.map (· ^^^ x)

def start (key : Key) : State := { inner := Sha1.State.start.add (maskedKey key 0x36), key }

def add (s : State) (data : Bytes) : State := { s with inner := s.inner.add data }

def finish (s : State) : Octets 20 :=
  ((Sha1.State.start.add (maskedKey s.key 0x5c)).add s.inner.finish.toList).finish

end State

def digest (key : Key) (data : Bytes) : Octets 20 := ((State.start key).add data).finish

/-- The nonce that a digest stands for: its first twelve bytes. -/
def nonceOf (digest : Octets 20) : Counter.Nonce := digest.take 12 (by decide)

def matchesNonce (digest : Octets 20) (nonce : Counter.Nonce) : Bool := nonceOf digest == nonce

/-- Two calls take in what one call with both parts does. -/
theorem State.add_append (s : State) (a b : Bytes) : s.add (a ++ b) = (s.add a).add b := by
  simp only [State.add, Sha1.State.add_append]

/-- A call without data takes in nothing. -/
theorem State.start_add_nil (key : Key) : (State.start key).add [] = .start key := by
  show ({ inner := (Sha1.State.start.add (maskedKey key 0x36)).add [], key } : State) = _
  rw [← Sha1.State.add_append, List.append_nil]
  rfl

end RepoSeal.Hmac
