import RepoSeal.Envelope.Format
import RepoSeal.Proofs.Keystream
import RepoSeal.Proofs.Streams

/-!
# RepoSeal — envelopes and their plaintexts

Every byte string with an envelope header splits in one way into magic, nonce and body
(`isEncrypted_iff`). Over that split the two directions of an envelope are seen to be inverse:
`reveal` undoes `enclose`, and `enclose` restores an envelope that is authentic (`enclose_reveal`). So
the authentic envelopes of an entry are exactly the values of `enclose`, without any property of the
cipher or the digest beyond that they are functions.
-/

namespace RepoSeal.Envelope

/-! ## The header -/

theorem length_magic : magic.length = 10 := by decide

/-- A header and what follows it. -/
theorem isEncrypted_iff (data : Bytes) :
    isEncrypted data = true ↔
      ∃ (nonce : Counter.Nonce) (body : Bytes), data = magic ++ nonce.toList ++ body := by
  unfold isEncrypted
  rw [Bool.and_eq_true, decide_eq_true_eq, List.isPrefixOf_iff_prefix]
  constructor
  · rintro ⟨hlen, rest, rfl⟩
    have hrest : 12 ≤ rest.length := by
      rw [List.length_take, List.length_append, length_magic, headerLength] at hlen
      omega
    refine ⟨⟨rest.take 12, by simp [hrest]⟩, rest.drop 12, ?_⟩
    rw [List.append_assoc, List.take_append_drop]
  · rintro ⟨nonce, body, rfl⟩
    refine ⟨?_, nonce.toList ++ body, by rw [List.append_assoc]⟩
    simp only [List.length_take, List.length_append, length_magic, nonce.length_toList,
      headerLength]
    omega

/-- Only the first bytes decide whether there is a header. -/
theorem isEncrypted_take (data : Bytes) {n : Nat} (hn : headerLength ≤ n) :
    isEncrypted (data.take n) = isEncrypted data := by
  have hmagic : magic.length ≤ n := by
    rw [length_magic]
    exact Nat.le_trans (by decide) hn
  have hstart : magic.isPrefixOf (data.take n) = magic.isPrefixOf data := by
    rw [Bool.eq_iff_iff, List.isPrefixOf_iff_prefix, List.isPrefixOf_iff_prefix,
      List.prefix_take_iff]
    exact and_iff_left hmagic
  unfold isEncrypted
  rw [hstart, List.take_take, Nat.min_eq_left hn]

section

variable (nonce : Counter.Nonce) (body : Bytes)

theorem nonceIn_header : nonceIn (magic ++ nonce.toList ++ body) = nonce := by
  apply Octets.ext
  have hnonce : nonce.toList.length = 12 := nonce.length_toList
  have htake : (nonce.toList ++ body).take 12 = nonce.toList := List.take_left' hnonce
  have hlen : 12 - (nonce.toList ++ body).length = 0 := by
    rw [List.length_append, hnonce]
    omega
  rw [nonceIn, List.append_assoc, List.drop_left]
  show (nonce.toList ++ body).take 12 ++ List.replicate (12 - (nonce.toList ++ body).length) 0 = _
  rw [htake, hlen, List.replicate_zero, List.append_nil]

theorem length_header : (magic ++ nonce.toList).length = headerLength := by
  rw [List.length_append, length_magic, nonce.length_toList, headerLength]

theorem drop_header : (magic ++ nonce.toList ++ body).drop headerLength = body :=
  List.drop_left' (length_header nonce)

end

theorem nonceIn_take {data : Bytes} {n : Nat} (hn : headerLength ≤ n)
    (h : isEncrypted data = true) : nonceIn (data.take n) = nonceIn data := by
  obtain ⟨nonce, body, rfl⟩ := (isEncrypted_iff data).mp h
  have hlen : (magic ++ nonce.toList).length ≤ n := (length_header nonce).symm ▸ hn
  rw [List.take_append, List.take_of_length_le hlen, nonceIn_header, nonceIn_header]

theorem length_le_of_isEncrypted {data : Bytes} (h : isEncrypted data = true) :
    headerLength ≤ data.length := by
  obtain ⟨nonce, body, rfl⟩ := (isEncrypted_iff data).mp h
  rw [List.length_append, List.length_append, length_magic, nonce.length_toList, headerLength]
  omega

/-! ## Enclosing and revealing -/

variable (entry : KeyEntry)

theorem isEncrypted_enclose (p : Bytes) : isEncrypted (enclose entry p) = true :=
  (isEncrypted_iff _).mpr ⟨_, _, rfl⟩

theorem nonceIn_enclose (p : Bytes) :
    nonceIn (enclose entry p) = nonceFor entry.digestKey p :=
  nonceIn_header _ _

theorem length_enclose (p : Bytes) : (enclose entry p).length = headerLength + p.length := by
  simp only [enclose, List.length_append, length_magic, Octets.length_toList,
    Counter.length_mask, headerLength]

/-- A front of an envelope that holds the header. -/
theorem take_enclose (p : Bytes) (n : Nat) :
    (enclose entry p).take (headerLength + n) =
      magic ++ (nonceFor entry.digestKey p).toList ++
        (Counter.mask entry.cipherKey (nonceFor entry.digestKey p) p).take n := by
  rw [enclose, ← length_header (nonceFor entry.digestKey p), List.take_length_add_append]

theorem length_reveal (e : Bytes) : (reveal entry e).length = e.length - headerLength := by
  rw [reveal, Counter.length_mask, List.length_drop]

theorem reveal_enclose (p : Bytes) : reveal entry (enclose entry p) = p := by
  rw [reveal, nonceIn_enclose, enclose, drop_header, Counter.mask_mask]

theorem isAuthentic_enclose (p : Bytes) : isAuthentic entry (enclose entry p) = true := by
  rw [isAuthentic, reveal_enclose, nonceIn_enclose, beq_self_eq_true]

/-- An authentic envelope is the envelope of what is revealed in it. -/
theorem enclose_reveal {e : Bytes} (he : isEncrypted e = true)
    (ha : isAuthentic entry e = true) : enclose entry (reveal entry e) = e := by
  obtain ⟨nonce, body, rfl⟩ := (isEncrypted_iff e).mp he
  have hnonce : nonceFor entry.digestKey (reveal entry (magic ++ nonce.toList ++ body)) = nonce := by
    rw [isAuthentic, beq_iff_eq] at ha
    rw [ha, nonceIn_header]
  rw [enclose, hnonce, reveal, nonceIn_header, drop_header, Counter.mask_mask]

/-! ## Runs

What a caller sees of a run is its result and what the output holds. -/

/-- The result and the output of a run, without its log. -/
def Run.outcome {α : Type} (r : Run α) : Except Error α × Sink := (r.result, r.sink)

section

variable {α : Type} {r : Run α} {k : Nat} {refusal : LastingFault}

theorem Run.of_deliver {b : Bytes} {last : Except Error α}
    (h : r.outcome = Sink.deliver { limit := some k, refusal } b last) :
    r.result = (if b.length ≤ k then last else .error (.io refusal)) ∧
      r.sink.bytes = b.take k := by
  show r.outcome.1 = _ ∧ r.outcome.2.bytes = _
  rw [h]
  exact Sink.deliver_fresh k refusal b last

/-- A run that fails once it has written the first `n` bytes of `b`. -/
theorem Run.of_deliver_error {b : Bytes} {n : Nat} {e : Error} (hn : n ≤ b.length)
    (h : r.outcome = Sink.deliver { limit := some k, refusal } (b.take n) (.error e)) :
    r.result = .error (if n ≤ k then e else .io refusal) ∧ r.sink.bytes = (b.take n).take k := by
  obtain ⟨hresult, hbytes⟩ := Run.of_deliver h
  rw [List.length_take, Nat.min_eq_left hn] at hresult
  refine ⟨?_, hbytes⟩
  rw [hresult]
  split
  · rfl
  · rfl

theorem Run.of_deliver_unlimited {b : Bytes} {last : Except Error α}
    (h : r.outcome = Sink.deliver {} b last) : r.result = last ∧ r.sink.bytes = b := by
  show r.outcome.1 = _ ∧ r.outcome.2.bytes = _
  rw [h]
  exact Sink.deliver_unlimited b last

theorem Run.of_untouched {e : Error} (h : r.outcome = (.error e, { limit := some k, refusal })) :
    r.result = .error e ∧ r.sink.bytes = [] := by
  show r.outcome.1 = _ ∧ r.outcome.2.bytes = _
  rw [h]
  exact ⟨rfl, rfl⟩

end

end RepoSeal.Envelope
