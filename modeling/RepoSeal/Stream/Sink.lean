import RepoSeal.Fault

/-!
# RepoSeal — sinks

A sink takes bytes in order, all of them or only the first so many. A write that the sink cannot
take in full leaves what fits and fails. Flushing never fails, so it is not an operation here.
-/

namespace RepoSeal

structure Sink where
  accepted : Array UInt8 := #[]
  /-- How many bytes the sink accepts in total, if there is a limit. -/
  limit : Option Nat := none
  /-- What a write fails with that the sink cannot take in full. -/
  refusal : LastingFault := .refused

namespace Sink

def bytes (s : Sink) : Bytes := s.accepted.toList

/-- How many more bytes the sink takes of `wanted`. -/
def room (s : Sink) (wanted : Nat) : Nat :=
  match s.limit with
  | none => wanted
  | some k => k - s.accepted.size

/-- Writes all of `b`, or as much as fits and fails. -/
def write (s : Sink) (b : Bytes) : Except Fault Unit × Sink :=
  let room := s.room b.length
  let s' := { s with accepted := s.accepted ++ b.take room }
  if b.length ≤ room then (.ok (), s') else (.error s.refusal, s')

theorem bytes_write (s : Sink) (b : Bytes) :
    (s.write b).2.bytes = s.bytes ++ b.take (s.room b.length) := by
  unfold write bytes
  dsimp only
  split <;> simp

end Sink

end RepoSeal
