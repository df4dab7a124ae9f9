import RepoSeal.Proofs.Opening
import RepoSeal.Proofs.Sealing

/-!
# RepoSeal — sealing and opening are inverse

Between streams without faults, sealing writes `enclose` of the plaintext (`sealWith_unlimited`) and
opening an envelope writes `reveal` of it (`openWithEntry_unlimited`). With the laws of `enclose` and
`reveal` that gives the round trip for all options and schedules, and that the authentic envelopes
are exactly those that sealing writes.
-/

namespace RepoSeal.Envelope

variable (entry : KeyEntry)

/-! ## Runs into an unlimited sink -/

theorem sealWith_unlimited (o : Options) (p : Bytes) (schedule scratchReads : Schedule)
    (hlimit : p.length < o.maxPlaintext) (hfit : p.length ≤ Counter.capacity) :
    (sealWith entry o { rest := p, schedule } {} scratchReads).result = .ok p.length ∧
      (sealWith entry o { rest := p, schedule } {} scratchReads).sink.bytes = enclose entry p := by
  apply Run.of_deliver_unlimited
  apply sealWith_of_whole entry o {} scratchReads
  · rintro ⟨_, hlong⟩
    exact absurd hlimit (Nat.not_lt.mpr hlong)
  · rfl
  · exact hfit

/-- A run that succeeds has written the envelope of its plaintext. -/
theorem enclose_of_sealWith_ok {o : Options} {p : Bytes} {schedule scratchReads : Schedule} {n : Nat}
    (h : (sealWith entry o { rest := p, schedule } {} scratchReads).result = .ok n) :
    (sealWith entry o { rest := p, schedule } {} scratchReads).sink.bytes = enclose entry p ∧
      p.length ≤ Counter.capacity := by
  by_cases hshort : p ≠ [] ∧ o.maxPlaintext ≤ p.length
  · have hlong : (sealWith entry o { rest := p, schedule } {} scratchReads).outcome =
        (.error .capacityExceeded, {}) :=
      sealWith_of_long entry o {} scratchReads hshort.1 hshort.2
    cases h.symm.trans (congrArg Prod.fst hlong)
  · by_cases hfit : p.length ≤ Counter.capacity
    · have hwhole : (sealWith entry o { rest := p, schedule } {} scratchReads).outcome =
          Sink.deliver {} (enclose entry p) (.ok p.length) :=
        sealWith_of_whole entry o {} scratchReads hshort rfl hfit
      exact ⟨(Run.of_deliver_unlimited hwhole).2, hfit⟩
    · obtain ⟨k, _, hover⟩ : ∃ k, k ≤ Counter.capacity ∧
          (sealWith entry o { rest := p, schedule } {} scratchReads).outcome =
            Sink.deliver {} ((enclose entry p).take (headerLength + k))
              (.error .capacityExceeded) :=
        sealWith_of_lt entry o {} scratchReads hshort rfl (Nat.lt_of_not_le hfit)
      cases h.symm.trans (Run.of_deliver_unlimited hover).1

theorem openWithEntry_unlimited (o : Options) {e : Bytes} (schedule : Schedule)
    (he : isEncrypted e = true) (hfit : e.length - headerLength ≤ Counter.capacity) :
    (openWithEntry entry o { rest := e, schedule } {}).result =
        .ok (if isAuthentic entry e then .authentic (e.length - headerLength)
          else .tampered (e.length - headerLength)) ∧
      (openWithEntry entry o { rest := e, schedule } {}).sink.bytes = reveal entry e := by
  have hverdict : verdict entry.digestKey (nonceIn e) (reveal entry e) =
      if isAuthentic entry e then .authentic (e.length - headerLength)
      else .tampered (e.length - headerLength) := by
    rw [verdict, length_reveal]
    simp only [isAuthentic, beq_iff_eq]
  rw [← hverdict]
  apply Run.of_deliver_unlimited
  exact openChoosing_of_entry o {} he entry hfit

/-! ## The round trip -/

/-- **Opening what was sealed gives the plaintext back**, for all options on both sides and however
the sources and the scratch file cut their data. -/
theorem openWithEntry_sealWith (p : Bytes) (o o' : Options)
    (schedule schedule' scratchReads : Schedule) (hlimit : p.length < o.maxPlaintext)
    (hfit : p.length ≤ Counter.capacity) :
    let sealing := sealWith entry o { rest := p, schedule } {} scratchReads
    let opening := openWithEntry entry o'
      { rest := sealing.sink.bytes, schedule := schedule' } {}
    sealing.result = .ok p.length ∧
      opening.result = .ok (.authentic p.length) ∧ opening.sink.bytes = p := by
  intro sealing opening
  obtain ⟨hsealed, hbytes⟩ := sealWith_unlimited entry o p schedule scratchReads hlimit hfit
  have hlen : (enclose entry p).length - headerLength = p.length := by
    rw [length_enclose]
    omega
  obtain ⟨hopened, hrevealed⟩ := openWithEntry_unlimited entry o' schedule'
    (isEncrypted_enclose entry p) (by rwa [hlen])
  rw [isAuthentic_enclose, if_pos rfl, hlen] at hopened
  rw [reveal_enclose] at hrevealed
  refine ⟨hsealed, ?_, ?_⟩
  · show (openWithEntry entry o' { rest := sealing.sink.bytes, schedule := schedule' } {}).result = _
    rw [hbytes, hopened]
  · show (openWithEntry entry o' { rest := sealing.sink.bytes, schedule := schedule' } {}).sink.bytes
      = _
    rw [hbytes, hrevealed]

/-- A plaintext one byte below the limit, spilled from its first byte on, between sources that
interrupt every other read and deliver at most seven bytes. -/
theorem openWithEntry_sealWith_spilled :
    let entry : KeyEntry := ⟨0, .replicate 32 7, .replicate 64 9⟩
    let o : Options := { spillThreshold := 0, maxPlaintext := 41, pieceSize := 0 }
    let schedule : Schedule := fun i => { interruptions := i % 2, atMost := some 7 }
    let sealing := sealWith entry o { rest := List.replicate 40 3, schedule } {} schedule
    let opening := openWithEntry entry {} { rest := sealing.sink.bytes, schedule } {}
    sealing.result = .ok 40 ∧
      opening.result = .ok (.authentic 40) ∧ opening.sink.bytes = List.replicate 40 3 :=
  openWithEntry_sealWith _ (List.replicate 40 3) _ _ _ _ _ (by decide) (by decide)

/-! ## Authentic envelopes

An envelope that opens as authentic is one that sealing writes, and no other. The sealing may be any
in which the plaintext stays below the length limit; all of them write the same envelope. -/

/-- Some sealing of `p` succeeds and writes `e`. -/
def Seals (p e : Bytes) : Prop :=
  ∃ (o : Options) (schedule scratchReads : Schedule), p.length < o.maxPlaintext ∧
    (sealWith entry o { rest := p, schedule } {} scratchReads).result = .ok p.length ∧
    (sealWith entry o { rest := p, schedule } {} scratchReads).sink.bytes = e

theorem seals_iff {p e : Bytes} :
    Seals entry p e ↔ p.length ≤ Counter.capacity ∧ enclose entry p = e := by
  constructor
  · rintro ⟨o, schedule, scratchReads, _, hresult, rfl⟩
    obtain ⟨hbytes, hfit⟩ := enclose_of_sealWith_ok entry hresult
    exact ⟨hfit, hbytes.symm⟩
  · rintro ⟨hfit, rfl⟩
    have hlimit : p.length < ({ maxPlaintext := p.length + 1 } : Options).maxPlaintext :=
      Nat.lt_succ_self _
    exact ⟨_, .prompt, .prompt, hlimit, sealWith_unlimited entry _ p _ _ hlimit hfit⟩

/-- The one plaintext that can seal to an envelope is what is revealed in it. -/
theorem exists_seals_iff {e : Bytes} (he : isEncrypted e = true)
    (hfit : e.length - headerLength ≤ Counter.capacity) :
    (∃ p, Seals entry p e) ↔ isAuthentic entry e = true := by
  constructor
  · rintro ⟨p, hp⟩
    obtain ⟨_, rfl⟩ := (seals_iff entry).mp hp
    exact isAuthentic_enclose entry p
  · intro ha
    refine ⟨reveal entry e, (seals_iff entry).mpr ⟨?_, enclose_reveal entry he ha⟩⟩
    rwa [length_reveal]

/-- **The authentic envelopes are those that sealing writes.** The plaintext sealed is the one that
opening writes, and sealing that again, in whatever way, restores the envelope. Opening reports any
other envelope as tampered. -/
theorem authentic_iff_seals (e : Bytes) (o : Options) (schedule : Schedule)
    (he : isEncrypted e = true) (hfit : e.length - headerLength ≤ Counter.capacity) :
    let opening := openWithEntry entry o { rest := e, schedule } {}
    ((∃ n, opening.result = .ok (.authentic n)) ↔ ∃ p, Seals entry p e) ∧
    (∀ p, Seals entry p e →
      opening.result = .ok (.authentic p.length) ∧ opening.sink.bytes = p ∧
      ∀ (o' : Options) (schedule' scratchReads : Schedule), p.length < o'.maxPlaintext →
        let sealing := sealWith entry o' { rest := opening.sink.bytes, schedule := schedule' } {}
          scratchReads
        sealing.result = .ok p.length ∧ sealing.sink.bytes = e) ∧
    ((¬ ∃ p, Seals entry p e) →
      opening.result = .ok (.tampered (e.length - headerLength))) := by
  intro opening
  obtain ⟨hresult, hbytes⟩ := openWithEntry_unlimited entry o schedule he hfit
  refine ⟨?_, fun p hp => ?_, fun hnone => ?_⟩
  · rw [exists_seals_iff entry he hfit]
    show (∃ n, (openWithEntry entry o { rest := e, schedule } {}).result = _) ↔ _
    rw [hresult]
    constructor
    · rintro ⟨n, hn⟩
      cases ha : isAuthentic entry e with
      | true => rfl
      | false =>
        rw [ha, if_neg Bool.false_ne_true] at hn
        cases hn
    · intro ha
      exact ⟨_, by rw [if_pos ha]⟩
  · obtain ⟨hp', rfl⟩ := (seals_iff entry).mp hp
    rw [reveal_enclose] at hbytes
    rw [isAuthentic_enclose, if_pos rfl, length_enclose, Nat.add_sub_cancel_left] at hresult
    have hopened : opening.sink.bytes = p := hbytes
    refine ⟨hresult, hopened, fun o' schedule' scratchReads hlimit => ?_⟩
    rw [hopened]
    exact sealWith_unlimited entry o' p schedule' scratchReads hlimit hp'
  · rw [exists_seals_iff entry he hfit] at hnone
    rw [if_neg hnone] at hresult
    exact hresult

/-- An envelope with a body of two blocks, whose nonce is all zeros. -/
theorem authentic_iff_seals_blank :
    let entry : KeyEntry := ⟨0, .replicate 32 7, .replicate 64 9⟩
    let e : Bytes := magic ++ List.replicate 12 0 ++ List.replicate 20 5
    let opening := openWithEntry entry {} { rest := e } {}
    isEncrypted e = true ∧
      ((∃ n, opening.result = .ok (.authentic n)) ↔ ∃ p, Seals entry p e) :=
  ⟨by decide, (authentic_iff_seals _ _ {} .prompt (by decide) (by decide)).1⟩

end RepoSeal.Envelope
