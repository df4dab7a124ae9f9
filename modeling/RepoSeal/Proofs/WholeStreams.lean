import RepoSeal.Proofs.Opening

/-!
# RepoSeal — whole streams through the cipher

Combining a stream with the keystream is a loop of its own, with pieces of a fixed size. What it comes
to is again one delivery (`pump_eq`), and the delivery is the one of opening an envelope, without the
digest. Two loops that come to one delivery write the same bytes into any sink, however the data was
cut on its way to either of them.
-/

namespace RepoSeal.Counter

variable {key : Aes.Key} {nonce : Nonce}

/-! ## The loop -/

theorem streamPiece_pos : 0 < streamPiece := by decide

/-- Whatever the pieces, the loop writes its data combined with the keystream. -/
theorem pump_eq {c : Cipher} (hc : c.Follows key nonce) (source : Source) (sink : Sink)
    (hfit : c.position + source.rest.length ≤ capacity) :
    pump c source sink =
      sink.deliver (maskFrom key nonce c.position source.rest)
        (source.conclude (.ok (c.position + source.rest.length))) := by
  fun_induction pump c source sink with
  | case1 c source sink fault s' hr =>
    obtain ⟨hrest, last, hending, rfl⟩ := Source.readSome_error streamPiece_pos hr
    rw [hrest, maskFrom, Sink.deliver_nil, Source.conclude_of_some hending]
  | case2 c source sink s' hr =>
    obtain ⟨hrest, hending, _⟩ := Source.readSome_nil streamPiece_pos hr
    rw [hrest, maskFrom, Sink.deliver_nil, Source.conclude_of_none hending]
    rfl
  | case3 c source sink x piece s' hr e he =>
    -- a refused piece would pass the capacity
    obtain ⟨hrest, _, _⟩ := Source.readSome_cons streamPiece_pos hr
    obtain ⟨_, hover⟩ := Cipher.process_error he
    rw [hrest, List.length_append] at hfit
    omega
  | case4 c source sink x piece s' hr out c' hout fault sink' hw =>
    obtain ⟨hrest, _, _⟩ := Source.readSome_cons streamPiece_pos hr
    obtain ⟨rfl, _, _, _⟩ := hc.process_ok hout
    rw [hrest, maskFrom_append, Sink.deliver_append, hw]
  | case5 c source sink x piece s' hr out c' hout _ sink' hw ih =>
    obtain ⟨hrest, _, hending⟩ := Source.readSome_cons streamPiece_pos hr
    obtain ⟨rfl, hc', hposition, _⟩ := hc.process_ok hout
    rw [hrest, List.length_append, ← Nat.add_assoc, ← hposition] at hfit
    rw [hrest, maskFrom_append, Sink.deliver_append, hw]
    dsimp only
    rw [ih hc' hfit, hposition, Source.conclude_congr hending, List.length_append, Nat.add_assoc]

/-- Data past the capacity is combined up to some piece, and the next piece is refused. -/
theorem pump_of_lt {c : Cipher} (hc : c.Follows key nonce) (source : Source) (sink : Sink)
    (hposition : c.position ≤ capacity) (hover : capacity < c.position + source.rest.length) :
    ∃ front tail, source.rest = front ++ tail ∧ c.position + front.length ≤ capacity ∧
      pump c source sink =
        sink.deliver (maskFrom key nonce c.position front) (.error .capacityExceeded) := by
  fun_induction pump c source sink with
  | case1 c source sink fault s' hr =>
    obtain ⟨hrest, _⟩ := Source.readSome_error streamPiece_pos hr
    rw [hrest, List.length_nil] at hover
    omega
  | case2 c source sink s' hr =>
    obtain ⟨hrest, _⟩ := Source.readSome_nil streamPiece_pos hr
    rw [hrest, List.length_nil] at hover
    omega
  | case3 c source sink x piece s' hr e he =>
    obtain ⟨rfl, _⟩ := Cipher.process_error he
    exact ⟨[], source.rest, rfl, hposition, by rw [maskFrom, Sink.deliver_nil]⟩
  | case4 c source sink x piece s' hr out c' hout fault sink' hw =>
    obtain ⟨hrest, _, _⟩ := Source.readSome_cons streamPiece_pos hr
    obtain ⟨rfl, _, hposition', hle⟩ := hc.process_ok hout
    exact ⟨x :: piece, s'.rest, hrest, hposition' ▸ hle hposition, by rw [Sink.deliver, hw]⟩
  | case5 c source sink x piece s' hr out c' hout _ sink' hw ih =>
    obtain ⟨hrest, _, _⟩ := Source.readSome_cons streamPiece_pos hr
    obtain ⟨rfl, hc', hposition', hle⟩ := hc.process_ok hout
    rw [hrest, List.length_append, ← Nat.add_assoc, ← hposition'] at hover
    obtain ⟨front, tail, hsplit, hfront, heq⟩ := ih hc' (hle hposition) hover
    refine ⟨x :: piece ++ front, tail, ?_, ?_, ?_⟩
    · rw [hrest, hsplit, List.append_assoc]
    · rw [List.length_append]
      omega
    · rw [heq, maskFrom_append, Sink.deliver_append, hw, hposition']

/-! ## From the start of the keystream -/

section

variable (key nonce) (source : Source) (sink : Sink)

theorem processStream_eq (hfit : source.rest.length ≤ capacity) :
    processStream key nonce source sink =
      sink.deliver (mask key nonce source.rest) (source.conclude (.ok source.rest.length)) := by
  have hpump := pump_eq (Cipher.follows_start key nonce) source sink
    (by show 0 + _ ≤ _; omega)
  have hzero : (Cipher.start key nonce).position = 0 := rfl
  rwa [hzero, Nat.zero_add, maskFrom_zero] at hpump

theorem processStream_of_lt (hover : capacity < source.rest.length) :
    ∃ n ≤ capacity, processStream key nonce source sink =
      sink.deliver ((mask key nonce source.rest).take n) (.error .capacityExceeded) := by
  obtain ⟨front, tail, hsplit, hfront, hpump⟩ := pump_of_lt (Cipher.follows_start key nonce)
    source sink (Nat.zero_le _) (by show _ < 0 + _; omega)
  have hzero : (Cipher.start key nonce).position = 0 := rfl
  rw [hzero, Nat.zero_add] at hfront
  refine ⟨front.length, hfront, ?_⟩
  rw [hsplit, take_mask_append]
  exact hpump

end

/-- The front of combined data is the front of the data, combined. -/
theorem mask_take (key : Aes.Key) (nonce : Nonce) {data : Bytes} {n : Nat} (h : n ≤ data.length) :
    mask key nonce (data.take n) = (mask key nonce data).take n := by
  have htake := take_mask_append key nonce (data.take n) (data.drop n)
  rw [List.take_append_drop, List.length_take, Nat.min_eq_left h, maskFrom_zero] at htake
  exact htake.symm

end RepoSeal.Counter

namespace RepoSeal.Envelope

open Counter

/-! ## Data that breaks off -/

/-- How far a source reads, as an offset into its data. -/
def reach (x : Bytes) : Option (Cut x) → Nat
  | none => x.length
  | some cut => cut.offset

section

variable {x : Bytes} (cut : Option (Cut x))

theorem reach_le : reach x cut ≤ x.length := by
  cases cut with
  | none => exact Nat.le_refl _
  | some c => exact c.offset_le

theorem delivered_eq_take : delivered x cut = x.take (reach x cut) := by
  cases cut with
  | none => exact List.take_length.symm
  | some c => rfl

theorem conclude_ofCut_eq {α : Type} (schedule : Schedule) (last : Except Error α) :
    (Source.ofCut x cut schedule).conclude last =
      match cut with
      | none => last
      | some c => .error (.io c.fault) := by
  cases cut with
  | none => rfl
  | some c => rfl

end

/-! ## The cipher and the codec -/

section

variable (entry : KeyEntry) (o : Options) {e : Bytes} {cut : Option (Cut e)} (sink : Sink)

/-- What a source has delivered of an envelope is revealed from the body and the nonce alone. -/
theorem reveal_delivered (he : isEncrypted e = true) (hcut : ∀ c ∈ cut, headerLength ≤ c.offset) :
    reveal entry (delivered e cut) =
      mask entry.cipherKey (nonceIn e) ((delivered e cut).drop headerLength) := by
  rw [reveal, nonceIn_delivered hcut he]

theorem verdict_bytesWritten (key : Hmac.Key) (nonce : Nonce) (plaintext : Bytes) :
    (verdict key nonce plaintext).bytesWritten = plaintext.length := by
  unfold verdict
  split
  · rfl
  · rfl

theorem processStream_eq_openWithEntry (he : isEncrypted e = true)
    (hcut : ∀ c ∈ cut, headerLength ≤ c.offset) (schedule schedule' : Schedule)
    (hfit : ((delivered e cut).drop headerLength).length ≤ capacity) :
    processStream entry.cipherKey (nonceIn e)
        { rest := (delivered e cut).drop headerLength, ending := cut.map Cut.fault,
          schedule := schedule' } sink =
      ((openWithEntry entry o (.ofCut e cut schedule) sink).result.map Opened.bytesWritten,
        (openWithEntry entry o (.ofCut e cut schedule) sink).sink) := by
  have henc : isEncrypted (Source.ofCut e cut schedule).rest = true :=
    (isEncrypted_delivered hcut).trans he
  have hopen := openChoosing_of_entry o sink henc entry (by rwa [List.length_drop] at hfit)
  have hpair := Sink.deliver_map sink (reveal entry (delivered e cut))
    ((Source.ofCut e cut schedule).conclude (.ok (verdict entry.digestKey
      (nonceIn (delivered e cut)) (reveal entry (delivered e cut))))) Opened.bytesWritten
  -- the count that the opening reports is the length of what it writes
  have hlast : ((Source.ofCut e cut schedule).conclude (.ok (verdict entry.digestKey
      (nonceIn (delivered e cut)) (reveal entry (delivered e cut))))).map Opened.bytesWritten =
        (Source.ofCut e cut schedule).conclude
          (.ok ((delivered e cut).drop headerLength).length) := by
    rw [conclude_ofCut_eq, conclude_ofCut_eq]
    cases cut with
    | none =>
      show Except.ok (Opened.bytesWritten _) = _
      rw [verdict_bytesWritten, length_reveal, List.length_drop]
    | some c => rfl
  rw [processStream_eq _ _ _ _ hfit, ← reveal_delivered entry he hcut]
  show sink.deliver _ ((Source.ofCut e cut schedule).conclude _) =
    (((openWithEntry entry o (.ofCut e cut schedule) sink).outcome).1.map Opened.bytesWritten,
      ((openWithEntry entry o (.ofCut e cut schedule) sink).outcome).2)
  rw [openWithEntry, hopen, ← hlast]
  exact hpair.symm

end

/-- **Streams through the cipher come out as through the codec.** A source that fails behind `d`
bytes of `x`, or delivers all of them, leaves the first `k` of these `d` bytes in a sink with room for
`k`, combined with the keystream; the result counts them if all of `x` came through, and else is the
fault that was met first. The body of an envelope so comes out as opening writes it, with the same
count or fault, whatever the options and however the data is cut on either way. A body past the
capacity is refused by both, each behind a front of the same bytes. -/
theorem processStream_outcome :
    (∀ (key : Aes.Key) (nonce : Nonce) (x : Bytes) (cut : Option (Cut x)) (schedule : Schedule)
        (k : Nat) (refusal : LastingFault), x.length ≤ capacity →
      let d := reach x cut
      let run := processStream key nonce (.ofCut x cut schedule) { limit := some k, refusal }
      run.2.bytes = (mask key nonce x).take (min k d) ∧
        run.1 =
          if k < d then .error (.io refusal)
          else match cut with
            | none => .ok x.length
            | some c => .error (.io c.fault)) ∧
    (∀ (entry : KeyEntry) (o : Options) (e : Bytes) (cut : Option (Cut e))
        (schedule schedule' : Schedule) (sink : Sink),
      isEncrypted e = true → (∀ c ∈ cut, headerLength ≤ c.offset) →
      let body := (delivered e cut).drop headerLength
      let streamed := processStream entry.cipherKey (nonceIn e)
        { rest := body, ending := cut.map Cut.fault, schedule := schedule' } sink
      let opened := openWithEntry entry o (.ofCut e cut schedule) sink
      (body.length ≤ capacity →
        streamed = (opened.result.map Opened.bytesWritten, opened.sink)) ∧
      (capacity < body.length → ∃ m ≤ capacity, ∃ n ≤ capacity,
        streamed = sink.deliver ((mask entry.cipherKey (nonceIn e) body).take m)
            (.error .capacityExceeded) ∧
          opened.outcome = sink.deliver ((mask entry.cipherKey (nonceIn e) body).take n)
            (.error .capacityExceeded))) := by
  refine ⟨fun key nonce x cut schedule k refusal hx => ?_,
    fun entry o e cut schedule schedule' sink he hcut => ⟨fun hfit => ?_, fun hover => ?_⟩⟩
  · intro d run
    have hd : d ≤ x.length := reach_le cut
    have hlen : (delivered x cut).length = d := by
      rw [delivered_eq_take, List.length_take, Nat.min_eq_left hd]
    have hrun : run = Sink.deliver { limit := some k, refusal } (mask key nonce (delivered x cut))
        ((Source.ofCut x cut schedule).conclude (.ok (delivered x cut).length)) :=
      processStream_eq key nonce _ _ (by show (delivered x cut).length ≤ _; omega)
    obtain ⟨hresult, hbytes⟩ := Sink.deliver_fresh k refusal (mask key nonce (delivered x cut))
      ((Source.ofCut x cut schedule).conclude (.ok (delivered x cut).length))
    rw [← hrun] at hresult hbytes
    refine ⟨?_, ?_⟩
    · rw [hbytes, delivered_eq_take, mask_take key nonce hd, List.take_take]
    · rw [hresult, length_mask, hlen, conclude_ofCut_eq]
      by_cases hk : k < d
      · rw [if_neg (by omega), if_pos hk]
      · rw [if_pos (by omega), if_neg hk]
        cases cut with
        | none => rfl
        | some c => rfl
  · exact processStream_eq_openWithEntry entry o sink he hcut schedule schedule' hfit
  · obtain ⟨m, hm, hstream⟩ := processStream_of_lt entry.cipherKey (nonceIn e)
      { rest := (delivered e cut).drop headerLength, ending := cut.map Cut.fault,
        schedule := schedule' } sink hover
    have henc : isEncrypted (Source.ofCut e cut schedule).rest = true :=
      (isEncrypted_delivered hcut).trans he
    obtain ⟨n, hn, hopen⟩ := openChoosing_of_lt o sink henc entry
      (by rwa [List.length_drop] at hover)
    refine ⟨m, hm, n, hn, hstream, ?_⟩
    rw [← reveal_delivered entry he hcut]
    exact hopen

/-- An envelope that breaks off inside its body, read byte by byte between interruptions on one way
and in pieces of five on the other, for a sink that takes one byte. -/
theorem processStream_outcome_broken :
    let entry := KeyEntry.ofMaterial 0 (.replicate 96 7)
    let e := magic ++ (Octets.replicate 12 9).toList ++ [1, 2, 3]
    let cut : Cut e :=
      { offset := 24, offset_le := by decide, fault := { toFault := .permissionDenied } }
    let opened := openWithEntry entry { pieceSize := 5 } (.ofCut e (some cut) .prompt)
      { limit := some 1 }
    processStream entry.cipherKey (nonceIn e)
        { rest := [1, 2], ending := some { toFault := .permissionDenied },
          schedule := fun _ => { interruptions := 1, atMost := some 1 } } { limit := some 1 } =
      (opened.result.map Opened.bytesWritten, opened.sink) := by
  intro entry e cut
  exact (processStream_outcome.2 entry { pieceSize := 5 } e (some cut) .prompt
    (fun _ => { interruptions := 1, atMost := some 1 }) { limit := some 1 } (by decide)
    (fun c hc => by cases hc; decide)).1 (by decide)

end RepoSeal.Envelope
