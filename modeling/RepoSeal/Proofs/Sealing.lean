import RepoSeal.Envelope.Sealing
import RepoSeal.Proofs.Buffer
import RepoSeal.Proofs.EnvelopeLaws

/-!
# RepoSeal — the outcome of sealing a stream

The first pass is described by what it has read: the digest and the buffer both stand for that
(`gather_eq`), so threshold, piece size and schedule drop out. The second pass hands the held bytes
out in other pieces than they came in, from memory and then from the scratch file; only their
concatenation matters to the cipher and to the sink (`feed_emit`).
-/

namespace RepoSeal.Envelope

open PlaintextBuffer

/-! ## The second pass -/

section

variable {key : Aes.Key} {nonce : Counter.Nonce}

/-- The pieces are written combined with the keystream, as one write of all of them would be. -/
theorem feed_emit {cipher : Counter.Cipher} (hc : cipher.Follows key nonce) (sink : Sink)
    (pieces : List Bytes)
    (hfit : cipher.position + pieces.flatten.length ≤ Counter.capacity) :
    ((feed emit (cipher, sink) pieces).1, (feed emit (cipher, sink) pieces).2.2) =
      sink.deliver (Counter.maskFrom key nonce cipher.position pieces.flatten) (.ok ()) := by
  induction pieces generalizing cipher sink with
  | nil => rw [List.flatten_nil, Counter.maskFrom, Sink.deliver_nil, feed]
  | cons piece rest ih =>
    rw [List.flatten_cons, List.length_append] at hfit
    rw [List.flatten_cons, Counter.maskFrom_append, Sink.deliver_append, feed, emit]
    cases hp : cipher.process piece with
    | error e =>
      -- a refused piece would pass the capacity
      have hover := (Counter.Cipher.process_error hp).2
      omega
    | ok r =>
      obtain ⟨out, cipher'⟩ := r
      obtain ⟨rfl, hc', hposition, _⟩ := hc.process_ok hp
      cases hw : sink.write (Counter.maskFrom key nonce cipher.position piece) with
      | mk wrote sink' =>
        cases wrote with
        | error fault => simp only [hw]
        | ok _ =>
          simp only [hw]
          rw [ih hc' sink' (by omega), hposition]

/-- Pieces past the capacity are written up to some piece, and the next one is refused. Which one
that is does not depend on the sink. -/
theorem feed_emit_of_lt {cipher : Counter.Cipher} (hc : cipher.Follows key nonce)
    (hle : cipher.position ≤ Counter.capacity) (pieces : List Bytes)
    (hover : Counter.capacity < cipher.position + pieces.flatten.length) :
    ∃ front tail, pieces.flatten = front ++ tail ∧
      cipher.position + front.length ≤ Counter.capacity ∧
      ∀ sink : Sink,
        ((feed emit (cipher, sink) pieces).1, (feed emit (cipher, sink) pieces).2.2) =
          sink.deliver (Counter.maskFrom key nonce cipher.position front)
            (.error .capacityExceeded) := by
  induction pieces generalizing cipher with
  | nil =>
    rw [List.flatten_nil, List.length_nil] at hover
    omega
  | cons piece rest ih =>
    rw [List.flatten_cons, List.length_append] at hover
    cases hp : cipher.process piece with
    | error e =>
      obtain ⟨rfl, _⟩ := Counter.Cipher.process_error hp
      refine ⟨[], (piece :: rest).flatten, rfl, hle, fun sink => ?_⟩
      rw [feed, emit, Counter.maskFrom, Sink.deliver_nil]
      simp only [hp]
    | ok r =>
      obtain ⟨out, cipher'⟩ := r
      obtain ⟨rfl, hc', hposition, hle'⟩ := hc.process_ok hp
      obtain ⟨front, tail, hsplit, hfront, heq⟩ := ih hc' (hle' hle) (by omega)
      refine ⟨piece ++ front, tail, ?_, ?_, fun sink => ?_⟩
      · rw [List.flatten_cons, hsplit, List.append_assoc]
      · rw [List.length_append]
        omega
      · rw [Counter.maskFrom_append, Sink.deliver_append, feed, emit]
        cases hw : sink.write (Counter.maskFrom key nonce cipher.position piece) with
        | mk wrote sink' =>
          cases wrote with
          | error fault => simp only [hp, hw]
          | ok _ =>
            simp only [hp, hw]
            rw [heq, hposition]

end

section

variable (o : Options) (scratchReads : Schedule) (key : Aes.Key) (nonce : Counter.Nonce)
  {buffer : PlaintextBuffer} (sink : Sink)

theorem emitAll_eq_feed {written : Bytes} {last : Except Error Unit}
    (h : ∀ sink : Sink,
      ((feed emit (.start key nonce, sink) (buffer.pieces scratchReads o.piece)).1,
          (feed emit (.start key nonce, sink) (buffer.pieces scratchReads o.piece)).2.2) =
        sink.deliver written last) :
    emitAll o scratchReads key nonce buffer sink =
      sink.deliver (magic ++ nonce.toList ++ written) last := by
  rw [List.append_assoc, Sink.deliver_append, emitAll]
  cases hm : sink.write magic with
  | mk wrote sink₁ =>
    cases wrote with
    | error fault => rfl
    | ok _ =>
      dsimp only
      rw [Sink.deliver_append]
      cases hn : sink₁.write nonce.toList with
      | mk wrote sink₂ =>
        cases wrote with
        | error fault => rfl
        | ok _ => exact h sink₂

theorem emitAll_eq (hfit : buffer.contents.length ≤ Counter.capacity) :
    emitAll o scratchReads key nonce buffer sink =
      sink.deliver (magic ++ nonce.toList ++ Counter.mask key nonce buffer.contents) (.ok ()) := by
  apply emitAll_eq_feed
  intro sink₂
  have hpieces := buffer.flatten_pieces scratchReads o.piece_pos
  have hfeed := feed_emit (Counter.Cipher.follows_start key nonce) sink₂
    (buffer.pieces scratchReads o.piece) (by rw [hpieces]; show 0 + _ ≤ _; omega)
  rw [hpieces] at hfeed
  rw [← Counter.maskFrom_zero]
  exact hfeed

theorem emitAll_of_lt (hover : Counter.capacity < buffer.contents.length) :
    ∃ n, n ≤ Counter.capacity ∧
      emitAll o scratchReads key nonce buffer sink =
        sink.deliver (magic ++ nonce.toList ++ (Counter.mask key nonce buffer.contents).take n)
          (.error .capacityExceeded) := by
  have hpieces := buffer.flatten_pieces scratchReads o.piece_pos
  have hzero : (Counter.Cipher.start key nonce).position = 0 := rfl
  -- one split of the pieces serves every sink, so it does for the one behind the header
  obtain ⟨front, tail, hsplit, hfront, hfeed⟩ := feed_emit_of_lt
    (Counter.Cipher.follows_start key nonce) (Nat.zero_le _)
    (buffer.pieces scratchReads o.piece) (by rw [hpieces, hzero]; omega)
  rw [hpieces] at hsplit
  rw [hzero, Nat.zero_add] at hfront
  refine ⟨front.length, hfront, ?_⟩
  rw [hsplit, Counter.take_mask_append]
  exact emitAll_eq_feed o scratchReads key nonce sink hfeed

end

/-! ## The first pass -/

/-- The first pass ends with a buffer and a digest of everything read, unless that is too long or
cannot be read to its end. -/
theorem gather_eq (o : Options) (key : Hmac.Key) (source : Source) {buffer : PlaintextBuffer}
    {seen : Bytes} (hb : buffer.Holds seen) (log : Log) :
    ∃ buffer' : PlaintextBuffer, buffer'.Holds (seen ++ source.rest) ∧
      (gather o source ((Hmac.State.start key).add seen) buffer log).1 =
        if source.rest ≠ [] ∧ o.maxPlaintext ≤ seen.length + source.rest.length then
          .error .capacityExceeded
        else source.conclude (.ok ((Hmac.State.start key).add (seen ++ source.rest), buffer')) := by
  generalize hd : (Hmac.State.start key).add seen = digest
  fun_induction gather o source digest buffer log generalizing seen with
  | case1 source digest buffer log fault s' hr =>
    obtain ⟨hrest, last, hending, rfl⟩ := Source.readSome_error o.piece_pos hr
    refine ⟨buffer, by rwa [hrest, List.append_nil], ?_⟩
    rw [if_neg (fun h => h.1 hrest), Source.conclude_of_some hending]
  | case2 source digest buffer log s' hr =>
    obtain ⟨hrest, hending, _⟩ := Source.readSome_nil o.piece_pos hr
    refine ⟨buffer, by rwa [hrest, List.append_nil], ?_⟩
    rw [if_neg (fun h => h.1 hrest), Source.conclude_of_none hending, hrest, List.append_nil, hd]
  | case3 source digest buffer log x b s' hr piece =>
    rename_i hlong
    obtain ⟨hrest, _, _⟩ := Source.readSome_cons o.piece_pos hr
    -- the loop stops here, but the buffer is only described where it does not
    refine ⟨buffer.write source.rest, hb.write _, ?_⟩
    have hne : source.rest ≠ [] := by
      rw [hrest]
      exact List.cons_ne_nil _ _
    have hlen : (x :: b).length ≤ source.rest.length := by
      rw [hrest, List.length_append]
      omega
    have hlimit : o.maxPlaintext ≤ seen.length + (x :: b).length := hb.size_eq ▸ hlong
    rw [if_pos ⟨hne, by omega⟩]
  | case4 source digest buffer log x b s' hr piece hshort log' =>
    rename_i ih
    obtain ⟨hrest, _, hending⟩ := Source.readSome_cons o.piece_pos hr
    have hseen : (Hmac.State.start key).add (seen ++ x :: b) = digest.add (x :: b) := by
      rw [Hmac.State.add_append, hd]
    have hdata : seen ++ source.rest = seen ++ x :: b ++ s'.rest := by
      rw [hrest, List.append_assoc]
    obtain ⟨buffer', hholds, heq⟩ := ih (hb.write _) hseen
    refine ⟨buffer', hdata ▸ hholds, ?_⟩
    -- the limit is passed later on, or not at all
    have hlimit : ¬ o.maxPlaintext ≤ seen.length + (x :: b).length := hb.size_eq ▸ hshort
    have hcond : (s'.rest ≠ [] ∧ o.maxPlaintext ≤ (seen ++ x :: b).length + s'.rest.length) ↔
        (source.rest ≠ [] ∧ o.maxPlaintext ≤ seen.length + source.rest.length) := by
      rw [hrest, List.length_append, List.length_append, Nat.add_assoc]
      constructor
      · rintro ⟨_, hle⟩
        exact ⟨List.cons_ne_nil _ _, hle⟩
      · rintro ⟨_, hle⟩
        refine ⟨fun hnil => hlimit ?_, hle⟩
        rw [hnil, List.length_nil] at hle
        exact hle
    rw [heq, Source.conclude_congr hending, hdata]
    simp only [piece, hcond]

theorem gather_start (o : Options) (key : Hmac.Key) (source : Source) :
    ∃ buffer : PlaintextBuffer, buffer.Holds source.rest ∧
      (gather o source (.start key) { threshold := o.spillThreshold } []).1 =
        if source.rest ≠ [] ∧ o.maxPlaintext ≤ source.rest.length then .error .capacityExceeded
        else source.conclude (.ok ((Hmac.State.start key).add source.rest, buffer)) := by
  obtain ⟨buffer, hholds, heq⟩ := gather_eq o key source (holds_empty o.spillThreshold) []
  rw [List.nil_append] at hholds
  rw [Hmac.State.start_add_nil, List.length_nil, Nat.zero_add, List.nil_append] at heq
  exact ⟨buffer, hholds, heq⟩

/-! ## Both passes -/

section

variable (entry : KeyEntry) (o : Options) {source : Source} (sink : Sink) (scratchReads : Schedule)

/-- Nothing is written if the first pass fails. -/
theorem sealWith_of_gather_error {e : Error}
    (h : (gather o source (.start entry.digestKey) { threshold := o.spillThreshold } []).1 =
      .error e) :
    (sealWith entry o source sink scratchReads).outcome = (.error e, sink) := by
  unfold sealWith
  generalize gather o source (.start entry.digestKey) { threshold := o.spillThreshold } [] = g at h
  obtain ⟨first, log⟩ := g
  cases h
  rfl

theorem sealWith_of_gather_ok {buffer : PlaintextBuffer} (hholds : buffer.Holds source.rest)
    (h : (gather o source (.start entry.digestKey) { threshold := o.spillThreshold } []).1 =
      .ok ((Hmac.State.start entry.digestKey).add source.rest, buffer)) :
    (sealWith entry o source sink scratchReads).outcome =
      ((emitAll o scratchReads entry.cipherKey (nonceFor entry.digestKey source.rest) buffer
          sink).1.map fun _ => source.rest.length,
        (emitAll o scratchReads entry.cipherKey (nonceFor entry.digestKey source.rest) buffer
          sink).2) := by
  have hnonce : Hmac.nonceOf ((Hmac.State.start entry.digestKey).add source.rest).finish =
      nonceFor entry.digestKey source.rest := rfl
  unfold sealWith
  generalize gather o source (.start entry.digestKey) { threshold := o.spillThreshold } [] = g at h
  obtain ⟨first, log⟩ := g
  cases h
  dsimp only
  rw [hnonce]
  rcases emitAll o scratchReads entry.cipherKey (nonceFor entry.digestKey source.rest) buffer sink
    with ⟨_ | _, sink'⟩
  · rfl
  · rw [← hholds.size_eq]
    rfl

theorem sealWith_of_long (hne : source.rest ≠ []) (hlong : o.maxPlaintext ≤ source.rest.length) :
    (sealWith entry o source sink scratchReads).outcome = (.error .capacityExceeded, sink) := by
  obtain ⟨buffer, _, hgather⟩ := gather_start o entry.digestKey source
  rw [if_pos ⟨hne, hlong⟩] at hgather
  exact sealWith_of_gather_error entry o sink scratchReads hgather

variable (hshort : ¬ (source.rest ≠ [] ∧ o.maxPlaintext ≤ source.rest.length))

include hshort

/-- Within the limits, sealing writes the envelope of what the source delivers. -/
theorem sealWith_of_whole (hending : source.ending = none)
    (hfit : source.rest.length ≤ Counter.capacity) :
    (sealWith entry o source sink scratchReads).outcome =
      sink.deliver (enclose entry source.rest) (.ok source.rest.length) := by
  obtain ⟨buffer, hholds, hgather⟩ := gather_start o entry.digestKey source
  have hcontents := hholds.contents_eq
  rw [if_neg hshort, Source.conclude_of_none hending] at hgather
  rw [sealWith_of_gather_ok entry o sink scratchReads hholds hgather,
    emitAll_eq o scratchReads _ _ sink (by rwa [hcontents]), hcontents, Sink.deliver_map]
  rfl

/-- Past the capacity, sealing writes a front of the envelope and fails. -/
theorem sealWith_of_lt (hending : source.ending = none)
    (hover : Counter.capacity < source.rest.length) :
    ∃ n, n ≤ Counter.capacity ∧
      (sealWith entry o source sink scratchReads).outcome =
        sink.deliver ((enclose entry source.rest).take (headerLength + n))
          (.error .capacityExceeded) := by
  obtain ⟨buffer, hholds, hgather⟩ := gather_start o entry.digestKey source
  have hcontents := hholds.contents_eq
  rw [if_neg hshort, Source.conclude_of_none hending] at hgather
  obtain ⟨n, hn, hemit⟩ := emitAll_of_lt o scratchReads entry.cipherKey
    (nonceFor entry.digestKey source.rest) sink (by rwa [hcontents])
  refine ⟨n, hn, ?_⟩
  rw [sealWith_of_gather_ok entry o sink scratchReads hholds hgather, hemit, hcontents,
    Sink.deliver_map, take_enclose]
  rfl

end

end RepoSeal.Envelope
