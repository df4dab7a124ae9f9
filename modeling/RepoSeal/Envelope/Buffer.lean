import RepoSeal.Envelope.Format

/-!
# RepoSeal — holding a plaintext for a second pass

Sealing passes over the plaintext twice: the nonce depends on all of it. What has been read is held
in memory up to a threshold; the rest goes to a scratch file. What the two hold is decided by the
threshold and by all bytes so far (`Holds`), however they were cut into pieces (`Holds.write`). The
second pass takes the bytes in the order in which they came, in pieces of its own.
-/

namespace RepoSeal.Envelope

/-- A plaintext that is held for the second pass. -/
structure PlaintextBuffer where
  /-- The most bytes held in memory. -/
  threshold : Nat
  memory : Array UInt8 := #[]
  /-- The contents of the scratch file, if one was needed. -/
  scratch : Option (Array UInt8) := none
  /-- How many bytes have been added. -/
  size : Nat := 0

namespace PlaintextBuffer

/-- All bytes held, in order. -/
def contents (b : PlaintextBuffer) : Bytes := b.memory.toList ++ (b.scratch.getD #[]).toList

/-- Whether a scratch file was needed. -/
def spilled (b : PlaintextBuffer) : Bool := b.scratch.isSome

/-- How many bytes of a piece of `n` bytes still fit into memory. -/
def room (b : PlaintextBuffer) (n : Nat) : Nat := min (b.threshold - b.memory.size) n

/-- Whether a piece is the first one that does not fit into memory. -/
def spillsFirst (b : PlaintextBuffer) (data : Bytes) : Bool :=
  b.scratch.isNone && b.room data.length < data.length

/-- Adds a piece. -/
def write (b : PlaintextBuffer) (data : Bytes) : PlaintextBuffer :=
  let room := b.room data.length
  let overflow := data.drop room
  { b with
    memory := b.memory ++ data.take room
    scratch := if overflow.isEmpty then b.scratch else some (b.scratch.getD #[] ++ overflow)
    size := b.size + data.length }

@[simp] theorem threshold_write (b : PlaintextBuffer) (data : Bytes) :
    (b.write data).threshold = b.threshold := rfl

/-- The event that tells of the first use of the scratch file. -/
def spillEvent (b : PlaintextBuffer) : LogEvent :=
  ⟨.debug, .codec, "spilling plaintext to scratch file", [("threshold", .number b.threshold)]⟩

/-- What a buffer is like to which `data` has been added: the front of it, up to the threshold, is in
memory, and a scratch file has been made for the rest, if there is any. -/
structure Holds (b : PlaintextBuffer) (data : Bytes) : Prop where
  memory_eq : b.memory.toList = data.take b.threshold
  scratch_eq : b.scratch.map Array.toList =
    if b.threshold < data.length then some (data.drop b.threshold) else none
  size_eq : b.size = data.length

theorem holds_empty (threshold : Nat) : Holds { threshold } [] := ⟨by simp, by simp, rfl⟩

namespace Holds

variable {b : PlaintextBuffer} {data : Bytes}

theorem size_memory (h : b.Holds data) : b.memory.size = min b.threshold data.length := by
  rw [← Array.length_toList, h.memory_eq, List.length_take]

theorem spilled_iff (h : b.Holds data) : b.spilled ↔ b.threshold < data.length := by
  have hscratch := congrArg Option.isSome h.scratch_eq
  rw [Option.isSome_map] at hscratch
  rw [spilled, hscratch]
  split <;> simp_all

theorem toList_scratch (h : b.Holds data) :
    (b.scratch.getD #[]).toList = data.drop b.threshold := by
  have hscratch := h.scratch_eq
  split at hscratch
  · obtain ⟨file, hfile, hlist⟩ := Option.map_eq_some_iff.mp hscratch
    rw [hfile, Option.getD_some, hlist]
  · rename_i hshort
    rw [Option.map_eq_none_iff.mp hscratch, Option.getD_none,
      List.drop_eq_nil_of_le (Nat.le_of_not_lt hshort)]

/-- Nothing is lost, doubled or out of order. -/
theorem contents_eq (h : b.Holds data) : b.contents = data := by
  rw [contents, h.memory_eq, h.toList_scratch, List.take_append_drop]

/-- Adding a piece adds it at the end. -/
theorem write (h : b.Holds data) (piece : Bytes) : (b.write piece).Holds (data ++ piece) := by
  -- the room is what the data so far has left below the threshold, unless the piece needs less
  have hroom : b.room piece.length = min (b.threshold - data.length) piece.length := by
    rw [room, h.size_memory]
    omega
  have htake : piece.take (b.room piece.length) = piece.take (b.threshold - data.length) :=
    List.take_eq_take_iff.mpr (by omega)
  have hdrop : piece.drop (b.room piece.length) = piece.drop (b.threshold - data.length) :=
    List.drop_eq_drop_iff.mpr (by omega)
  refine ⟨?_, ?_, ?_⟩
  · show (b.memory ++ piece.take (b.room piece.length)).toList = _
    rw [Array.toList_appendList, h.memory_eq, htake, ← List.take_append, threshold_write]
  · show Option.map Array.toList (if (piece.drop (b.room piece.length)).isEmpty then b.scratch
      else some (b.scratch.getD #[] ++ piece.drop (b.room piece.length))) = _
    rw [hdrop, threshold_write, List.length_append, List.drop_append]
    by_cases hfits : piece.length ≤ b.threshold - data.length
    · -- nothing of the piece is left for the scratch file, which stays as it is
      have hnil : piece.drop (b.threshold - data.length) = [] := List.drop_eq_nil_of_le hfits
      rw [hnil, List.isEmpty_nil, if_pos rfl, h.scratch_eq, List.append_nil]
      by_cases hspilled : b.threshold < data.length
      · rw [if_pos hspilled, if_pos (by omega)]
      · rw [if_neg hspilled, if_neg (by omega)]
    · have hne : ¬ (piece.drop (b.threshold - data.length)).isEmpty := by
        simpa using hfits
      rw [if_neg hne, Option.map_some, Array.toList_appendList, h.toList_scratch,
        if_pos (by omega)]
  · show b.size + piece.length = (data ++ piece).length
    rw [h.size_eq, List.length_append]

end Holds

/-! ## The second pass -/

/-- The pieces in which a source without faults is read to its end. -/
def sourcePieces (s : Source) (size : Nat) : List Bytes :=
  match _h : s.readSome size with
  | (.ok (x :: piece), s') => (x :: piece) :: sourcePieces s' size
  | _ => []
termination_by s.rest.length
decreasing_by exact Source.readSome_lt _h

/-- The pieces of the second pass: those of the memory, then those of the scratch file as it is
read back, none of them longer than `size`. -/
def pieces (b : PlaintextBuffer) (schedule : Schedule) (size : Nat) : List Bytes :=
  piecesOf size b.memory.toList ++
    match b.scratch with
    | none => []
    | some file => sourcePieces { rest := file.toList, schedule } size

/-- Hands pieces to a consumer until one is refused. -/
def feed {σ ε : Type} (consume : σ → Bytes → Except ε Unit × σ) (st : σ) :
    List Bytes → Except ε Unit × σ
  | [] => (.ok (), st)
  | piece :: rest =>
    match consume st piece with
    | (.ok _, st') => feed consume st' rest
    | (.error e, st') => (.error e, st')

/-- Hands the held bytes to a consumer, in order, until a piece is refused. -/
def replay {σ ε : Type} (b : PlaintextBuffer) (schedule : Schedule) (size : Nat)
    (consume : σ → Bytes → Except ε Unit × σ) (st : σ) : Except ε Unit × σ :=
  feed consume st (b.pieces schedule size)

end PlaintextBuffer

end RepoSeal.Envelope
