import RepoSeal.Cipher.Counter

/-!
# RepoSeal — the keystream law of the running cipher

A running cipher computes one pad per block and keeps it between calls. What it puts out does not
depend on that: byte for byte it combines its data with the keystream from its position on
(`maskFrom`). The invariant that carries this is `Cipher.Follows`: inside a block the pad is the
encrypted counter block of the position; at the start of a block it is still that of the block
before, and nothing reads it.
-/

namespace RepoSeal.Counter

variable (key : Aes.Key) (nonce : Nonce)

/-! ## Combining from a position on -/

/-- A byte string combined with the keystream from a position on. -/
def maskFrom (position : Nat) : Bytes → Bytes
  | [] => []
  | x :: rest => (x ^^^ keystreamByte key nonce position) :: maskFrom (position + 1) rest

@[simp] theorem length_maskFrom (position : Nat) (data : Bytes) :
    (maskFrom key nonce position data).length = data.length := by
  induction data generalizing position with
  | nil => rfl
  | cons x rest ih => simp [maskFrom, ih]

/-- What stands behind a part is combined from the end of that part on. -/
theorem maskFrom_append (position : Nat) (a b : Bytes) :
    maskFrom key nonce position (a ++ b) =
      maskFrom key nonce position a ++ maskFrom key nonce (position + a.length) b := by
  induction a generalizing position with
  | nil => rfl
  | cons x rest ih =>
    rw [List.cons_append, maskFrom, maskFrom, ih, List.cons_append, List.length_cons,
      Nat.add_assoc, Nat.add_comm 1]

/-- Combining twice with the same part of the keystream restores the data. -/
theorem maskFrom_maskFrom (position : Nat) (data : Bytes) :
    maskFrom key nonce position (maskFrom key nonce position data) = data := by
  induction data generalizing position with
  | nil => rfl
  | cons x rest ih =>
    rw [maskFrom, maskFrom, ih, UInt8.xor_assoc, UInt8.xor_self, UInt8.xor_zero]

theorem maskFrom_zero (data : Bytes) : maskFrom key nonce 0 data = mask key nonce data := by
  suffices h : ∀ position, maskFrom key nonce position data =
      xorBytes data ((List.range' position data.length).map (keystreamByte key nonce)) by
    rw [h 0, mask, keystream, List.range_eq_range']
  -- a list of positions from the start on would not go through the induction
  intro position
  induction data generalizing position with
  | nil => rfl
  | cons x rest ih =>
    rw [maskFrom, ih, List.length_cons, List.range'_succ]
    rfl

@[simp] theorem length_mask (data : Bytes) : (mask key nonce data).length = data.length := by
  rw [← maskFrom_zero, length_maskFrom]

theorem take_mask_append (a b : Bytes) :
    (mask key nonce (a ++ b)).take a.length = maskFrom key nonce 0 a := by
  rw [← maskFrom_zero, maskFrom_append]
  exact List.take_left' (length_maskFrom ..)

/-- Encryption and decryption are one operation. -/
theorem mask_mask (data : Bytes) : mask key nonce (mask key nonce data) = data := by
  rw [← maskFrom_zero, ← maskFrom_zero, maskFrom_maskFrom]

/-! ## The invariant of the running cipher -/

namespace Cipher

variable {key nonce}

/-- The cipher stands in the keystream of a key and a nonce, with the pad of its block. -/
structure Follows (c : Cipher) (key : Aes.Key) (nonce : Nonce) : Prop where
  keys_eq : c.keys = Aes.expandKey key
  nonce_eq : c.nonce = nonce
  pad_eq : c.position % 16 ≠ 0 →
    c.pad = (Aes.encrypt key (counterBlock nonce (c.position / 16))).toList

theorem follows_start (key : Aes.Key) (nonce : Nonce) : (start key nonce).Follows key nonce where
  keys_eq := rfl
  nonce_eq := rfl
  pad_eq h := absurd rfl h

/-- The pad that a step reads is the encrypted counter block of the position. -/
theorem Follows.step {c : Cipher} (h : c.Follows key nonce) (x : UInt8) :
    (c.step x).1 = x ^^^ keystreamByte key nonce c.position ∧
      (c.step x).2.Follows key nonce ∧ (c.step x).2.position = c.position + 1 := by
  have hpad : (if c.position % 16 = 0 then
      (c.keys.encrypt (counterBlock c.nonce (c.position / 16))).toList else c.pad) =
        (Aes.encrypt key (counterBlock nonce (c.position / 16))).toList := by
    split
    · rw [h.keys_eq, h.nonce_eq, Aes.encrypt]
    · rename_i hne
      exact h.pad_eq hne
  refine ⟨?_, ⟨h.keys_eq, h.nonce_eq, ?_⟩, rfl⟩
  · simp only [Cipher.step, hpad, keystreamByte]
  · -- the next position is inside the same block, or no pad is asked for
    intro hne
    have hblock : (c.position + 1) / 16 = c.position / 16 := by
      simp only [Cipher.step] at hne
      omega
    simp only [Cipher.step, hpad, hblock]

theorem run_cons (c : Cipher) (x : UInt8) (rest : Bytes) (out : Array UInt8) :
    c.run (x :: rest) out = (c.step x).2.run rest (out.push (c.step x).1) := by
  rw [Cipher.run]

theorem Follows.run {c : Cipher} (h : c.Follows key nonce) (data : Bytes) (out : Array UInt8) :
    (c.run data out).1 = out.toList ++ maskFrom key nonce c.position data ∧
      (c.run data out).2.Follows key nonce ∧
      (c.run data out).2.position = c.position + data.length := by
  induction data generalizing c out with
  | nil => exact ⟨by simp [Cipher.run, maskFrom], h, rfl⟩
  | cons x rest ih =>
    obtain ⟨hbyte, hfollows, hposition⟩ := h.step x
    obtain ⟨hout, hfollows', hposition'⟩ := ih hfollows (out.push (c.step x).1)
    rw [run_cons]
    refine ⟨?_, hfollows', ?_⟩
    · rw [hout, hposition, hbyte]
      simp [maskFrom]
    · rw [hposition', hposition, List.length_cons]
      omega

/-! ## Calls

A call is refused exactly when it would pass the capacity; else it goes as a run does. -/

theorem process_error {c : Cipher} {data : Bytes} {e : Error} (h : c.process data = .error e) :
    e = .capacityExceeded ∧ capacity < c.position + data.length := by
  unfold Cipher.process at h
  split at h
  · cases h
    exact ⟨rfl, by omega⟩
  · cases h

theorem Follows.process_ok {c c' : Cipher} {data out : Bytes} (hc : c.Follows key nonce)
    (h : c.process data = .ok (out, c')) :
    out = maskFrom key nonce c.position data ∧ c'.Follows key nonce ∧
      c'.position = c.position + data.length ∧
      (c.position ≤ capacity → c'.position ≤ capacity) := by
  obtain ⟨hout, hfollows, hposition⟩ := hc.run data #[]
  unfold Cipher.process at h
  split at h
  · cases h
  · rename_i hfit
    simp only [Except.ok.injEq] at h
    rw [h] at hout hfollows hposition
    refine ⟨by simpa using hout, hfollows, hposition, fun hle => ?_⟩
    dsimp only at hposition
    omega

end Cipher

end RepoSeal.Counter
