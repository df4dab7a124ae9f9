import RepoSeal.Fault

/-!
# RepoSeal — sources

A source hands out a byte string in the pieces it likes. How it cuts the bytes is its schedule: for
every read, how many interruptions come first and how many bytes at most it delivers. After the last
byte it reports the end of its data, or fails for good. `readSome` reads through interruptions, and
`rest` of a source is exactly what readers have still to see (`readSome_rest`).
-/

namespace RepoSeal

/-- How a source answers one read: after `interruptions` failed attempts it delivers as many bytes
as are asked for, but no more than `atMost` if that is given. A read of waiting data always delivers
at least one byte. -/
structure Turn where
  interruptions : Nat := 0
  atMost : Option Nat := none

namespace Turn

/-- The number of bytes delivered when `asked` are asked for. -/
def limit (t : Turn) (asked : Nat) : Nat :=
  match t.atMost with
  | none => asked
  | some m => min asked (max m 1)

theorem limit_le (t : Turn) (asked : Nat) : t.limit asked ≤ asked := by
  unfold limit; split <;> omega

theorem limit_pos (t : Turn) {asked : Nat} (h : 0 < asked) : 0 < t.limit asked := by
  unfold limit; split <;> omega

end Turn

/-- A turn for every read, counted from the first. -/
abbrev Schedule := Nat → Turn

/-- Every read delivers what is asked for, without interruption. -/
def Schedule.prompt : Schedule := fun _ => {}

structure Source where
  /-- The bytes that no read has delivered yet. -/
  rest : Bytes
  /-- What a read past the last byte fails with; without it, such a read reports the end. -/
  ending : Option LastingFault := none
  schedule : Schedule := .prompt
  turn : Nat := 0
  /-- How many interruptions came since the last answered read. -/
  interrupted : Nat := 0

inductive ReadOutcome
  | interrupted
  | failed (fault : Fault)
  /-- The bytes read; none at the end of the data. -/
  | bytes (b : Bytes)
deriving DecidableEq

namespace Source

/-- One read of at most `asked` bytes. -/
def read (s : Source) (asked : Nat) : ReadOutcome × Source :=
  let turn := s.schedule s.turn
  if s.interrupted < turn.interruptions then
    (.interrupted, { s with interrupted := s.interrupted + 1 })
  else
    let answered := { s with turn := s.turn + 1, interrupted := 0 }
    match s.rest, s.ending with
    | [], some fault => (.failed fault, answered)
    | [], none => (.bytes [], answered)
    | waiting, _ =>
      let n := turn.limit asked
      (.bytes (waiting.take n), { answered with rest := waiting.drop n })

/-- The interruptions still to come before the next read is answered. -/
def patience (s : Source) : Nat := (s.schedule s.turn).interruptions - s.interrupted

/-- An interruption takes nothing from the source, and fewer of them remain. -/
theorem read_interrupted {s s' : Source} {asked : Nat} (h : s.read asked = (.interrupted, s')) :
    s'.rest = s.rest ∧ s'.ending = s.ending ∧ s'.patience < s.patience := by
  unfold read at h
  dsimp only at h
  split at h
  · rename_i hlt
    cases h
    refine ⟨rfl, rfl, ?_⟩
    simp only [patience]
    omega
  · split at h <;> cases h

/-- What a read delivers is taken off the front of what remains. -/
theorem read_bytes {s s' : Source} {asked : Nat} {b : Bytes}
    (h : s.read asked = (.bytes b, s')) :
    s.rest = b ++ s'.rest ∧ s'.ending = s.ending := by
  unfold read at h
  dsimp only at h
  split at h
  · cases h
  · split at h
    · cases h
    · rename_i hr _
      cases h
      exact ⟨by simp [hr], rfl⟩
    · cases h
      exact ⟨(List.take_append_drop _ _).symm, rfl⟩

/-- Reads again after every interruption, until bytes, the end or a fault comes. -/
def readSome (s : Source) (asked : Nat) : Except Fault Bytes × Source :=
  match _h : s.read asked with
  | (.interrupted, s') => readSome s' asked
  | (.failed fault, s') => (.error fault, s')
  | (.bytes b, s') => (.ok b, s')
termination_by s.patience
decreasing_by exact (read_interrupted _h).2.2

/-- What `readSome` delivers is taken off the front of what remains. -/
theorem readSome_rest {s s' : Source} {asked : Nat} {b : Bytes}
    (h : s.readSome asked = (.ok b, s')) : s.rest = b ++ s'.rest ∧ s'.ending = s.ending := by
  fun_induction readSome s asked with
  | case1 s s₁ hr ih =>
    have := ih h
    exact ⟨(read_interrupted hr).1 ▸ this.1, (read_interrupted hr).2.1 ▸ this.2⟩
  | case2 s fault s₁ hr => cases h
  | case3 s b' s₁ hr => cases h; exact read_bytes hr

/-- A read that delivers bytes leaves less to read. -/
theorem readSome_lt {s s' : Source} {asked : Nat} {x : UInt8} {b : Bytes}
    (h : s.readSome asked = (.ok (x :: b), s')) : s'.rest.length < s.rest.length := by
  rw [(readSome_rest h).1]
  simp only [List.length_append, List.length_cons]
  omega

/-- Reads until `asked` bytes are there, the data ends or a fault comes. -/
def readUpTo (s : Source) (asked : Nat) : Except Fault Bytes × Source :=
  if asked = 0 then (.ok [], s)
  else
    match _h : s.readSome asked with
    | (.error fault, s') => (.error fault, s')
    | (.ok [], s') => (.ok [], s')
    | (.ok (x :: b), s') =>
      match readUpTo s' (asked - (b.length + 1)) with
      | (.error fault, s'') => (.error fault, s'')
      | (.ok more, s'') => (.ok (x :: b ++ more), s'')
termination_by s.rest.length
decreasing_by exact readSome_lt _h

end Source

end RepoSeal
