import RepoSeal.Envelope.Opening
import RepoSeal.Proofs.EnvelopeLaws

/-!
# RepoSeal — the outcome of opening a stream

Each loop of the opening comes to one delivery: the bytes it writes, and the result if the sink takes
them all (`copyAll_eq`, `revealAll_eq`). The header is read whatever the source makes of it, so the
three ways behind it start from the same split of the data (`openChoosing_eq`). What breaks off
behind a header still has the header's nonce, which is how the outcome can speak of the whole stream.
-/

namespace RepoSeal.Envelope

/-! ## Passing a stream through -/

theorem copyAll_eq (source : Source) (sink : Sink) (count : Nat) :
    copyAll source sink count =
      sink.deliver source.rest (source.conclude (.ok (count + source.rest.length))) := by
  have hpos : 0 < copyPiece := by decide
  fun_induction copyAll source sink count with
  | case1 source sink count fault s' hr =>
    obtain ⟨hrest, last, hending, rfl⟩ := Source.readSome_error hpos hr
    rw [hrest, Sink.deliver_nil, Source.conclude_of_some hending]
  | case2 source sink count s' hr =>
    obtain ⟨hrest, hending, _⟩ := Source.readSome_nil hpos hr
    rw [hrest, Sink.deliver_nil, Source.conclude_of_none hending]
    rfl
  | case3 source sink count x b s' hr fault sink' hw =>
    obtain ⟨hrest, _, _⟩ := Source.readSome_cons hpos hr
    rw [hrest, Sink.deliver_append, hw]
  | case4 source sink count x b s' hr _ sink' hw ih =>
    obtain ⟨hrest, _, hending⟩ := Source.readSome_cons hpos hr
    rw [hrest, Sink.deliver_append, hw, ih, Source.conclude_congr hending, List.length_append,
      List.length_cons, Nat.add_assoc]

theorem passThrough_eq (front : Bytes) (source : Source) (sink : Sink) :
    (passThrough front source sink).outcome =
      sink.deliver (front ++ source.rest)
        (source.conclude (.ok (.notEncrypted (front ++ source.rest).length))) := by
  unfold passThrough
  rw [Sink.deliver_append]
  cases hw : sink.write front with
  | mk wrote sink' =>
    cases wrote with
    | error fault => rfl
    | ok _ =>
      dsimp only
      rw [copyAll_eq, List.length_append]
      unfold Sink.deliver Source.conclude
      rcases sink'.write source.rest with ⟨_ | _, sink''⟩
      · rfl
      · cases source.ending with
        | none => rfl
        | some fault => rfl

/-! ## Revealing -/

variable {key : Aes.Key} {nonce : Counter.Nonce}

/-- Whatever the pieces, revealing writes the body combined with the keystream, and digests what
it writes. -/
theorem revealAll_eq (o : Options) (digestKey : Hmac.Key) {cipher : Counter.Cipher}
    (hc : cipher.Follows key nonce) (seen : Bytes) (source : Source) (sink : Sink)
    (hfit : cipher.position + source.rest.length ≤ Counter.capacity) :
    revealAll o cipher ((Hmac.State.start digestKey).add seen) source sink =
      sink.deliver (Counter.maskFrom key nonce cipher.position source.rest)
        (source.conclude (.ok (cipher.position + source.rest.length,
          (Hmac.State.start digestKey).add
            (seen ++ Counter.maskFrom key nonce cipher.position source.rest)))) := by
  generalize hd : (Hmac.State.start digestKey).add seen = digest
  -- the digest in hand is always that of the bytes written so far
  fun_induction revealAll o cipher digest source sink generalizing seen with
  | case1 cipher digest source sink fault s' hr =>
    obtain ⟨hrest, last, hending, rfl⟩ := Source.readSome_error o.piece_pos hr
    rw [hrest, Counter.maskFrom, Sink.deliver_nil, Source.conclude_of_some hending]
  | case2 cipher digest source sink s' hr =>
    obtain ⟨hrest, hending, _⟩ := Source.readSome_nil o.piece_pos hr
    rw [hrest, Counter.maskFrom, Sink.deliver_nil, Source.conclude_of_none hending, ← hd,
      List.append_nil]
    rfl
  | case3 cipher digest source sink x b s' hr e he =>
    -- a refused piece would pass the capacity
    obtain ⟨hrest, _, _⟩ := Source.readSome_cons o.piece_pos hr
    obtain ⟨_, hover⟩ := Counter.Cipher.process_error he
    rw [hrest, List.length_append] at hfit
    omega
  | case4 cipher digest source sink x b s' hr out cipher' hout fault sink' hw =>
    obtain ⟨hrest, _, _⟩ := Source.readSome_cons o.piece_pos hr
    obtain ⟨rfl, _, _, _⟩ := hc.process_ok hout
    rw [hrest, Counter.maskFrom_append, Sink.deliver_append, hw]
  | case5 cipher digest source sink x b s' hr out cipher' hout _ sink' hw ih =>
    obtain ⟨hrest, _, hending⟩ := Source.readSome_cons o.piece_pos hr
    obtain ⟨rfl, hc', hposition, _⟩ := hc.process_ok hout
    rw [hrest, List.length_append, ← Nat.add_assoc, ← hposition] at hfit
    have hseen := (Hmac.State.start digestKey).add_append seen
      (Counter.maskFrom key nonce cipher.position (x :: b))
    rw [hd] at hseen
    rw [hrest, Counter.maskFrom_append, Sink.deliver_append, hw]
    dsimp only
    rw [ih hc' _ hfit hseen, hposition, Source.conclude_congr hending, List.length_append,
      Nat.add_assoc, List.append_assoc]

/-- A body past the capacity is revealed up to some piece, and the next piece is refused. -/
theorem revealAll_of_lt (o : Options) {cipher : Counter.Cipher} (hc : cipher.Follows key nonce)
    (digest : Hmac.State) (source : Source) (sink : Sink)
    (hposition : cipher.position ≤ Counter.capacity)
    (hover : Counter.capacity < cipher.position + source.rest.length) :
    ∃ front tail, source.rest = front ++ tail ∧
      cipher.position + front.length ≤ Counter.capacity ∧
      revealAll o cipher digest source sink =
        sink.deliver (Counter.maskFrom key nonce cipher.position front)
          (.error .capacityExceeded) := by
  fun_induction revealAll o cipher digest source sink with
  | case1 cipher digest source sink fault s' hr =>
    obtain ⟨hrest, _⟩ := Source.readSome_error o.piece_pos hr
    rw [hrest, List.length_nil] at hover
    omega
  | case2 cipher digest source sink s' hr =>
    obtain ⟨hrest, _⟩ := Source.readSome_nil o.piece_pos hr
    rw [hrest, List.length_nil] at hover
    omega
  | case3 cipher digest source sink x b s' hr e he =>
    obtain ⟨rfl, _⟩ := Counter.Cipher.process_error he
    exact ⟨[], source.rest, rfl, hposition, by rw [Counter.maskFrom, Sink.deliver_nil]⟩
  | case4 cipher digest source sink x b s' hr out cipher' hout fault sink' hw =>
    obtain ⟨hrest, _, _⟩ := Source.readSome_cons o.piece_pos hr
    obtain ⟨rfl, _, hposition', hle⟩ := hc.process_ok hout
    exact ⟨x :: b, s'.rest, hrest, hposition' ▸ hle hposition, by rw [Sink.deliver, hw]⟩
  | case5 cipher digest source sink x b s' hr out cipher' hout _ sink' hw ih =>
    obtain ⟨hrest, _, _⟩ := Source.readSome_cons o.piece_pos hr
    obtain ⟨rfl, hc', hposition', hle⟩ := hc.process_ok hout
    rw [hrest, List.length_append, ← Nat.add_assoc, ← hposition'] at hover
    obtain ⟨front, tail, hsplit, hfront, heq⟩ := ih hc' (hle hposition) hover
    refine ⟨x :: b ++ front, tail, ?_, ?_, ?_⟩
    · rw [hrest, hsplit, List.append_assoc]
    · rw [List.length_append]
      omega
    · rw [heq, Counter.maskFrom_append, Sink.deliver_append, hw, hposition']

/-! ## Opening an envelope -/

/-- How the opening of an envelope is reported in which `plaintext` was found. -/
def verdict (key : Hmac.Key) (nonce : Counter.Nonce) (plaintext : Bytes) : Opened :=
  if nonceFor key plaintext = nonce then .authentic plaintext.length
  else .tampered plaintext.length

section

variable {entry : KeyEntry} {o : Options} {source : Source} {sink sink' : Sink}

theorem openBody_of_error {e : Error}
    (h : revealAll o (.start entry.cipherKey nonce) (.start entry.digestKey) source sink =
      (.error e, sink')) :
    (openBody entry nonce o source sink).outcome = (.error e, sink') := by
  rw [openBody, h]
  rfl

theorem openBody_of_ok {plaintext : Bytes}
    (h : revealAll o (.start entry.cipherKey nonce) (.start entry.digestKey) source sink =
      (.ok (plaintext.length, (Hmac.State.start entry.digestKey).add plaintext), sink')) :
    (openBody entry nonce o source sink).outcome =
      (.ok (verdict entry.digestKey nonce plaintext), sink') := by
  have hmatch : Hmac.matchesNonce ((Hmac.State.start entry.digestKey).add plaintext).finish nonce =
      (nonceFor entry.digestKey plaintext == nonce) := rfl
  rw [openBody, h]
  dsimp only
  rw [hmatch, verdict]
  by_cases hnonce : nonceFor entry.digestKey plaintext = nonce
  · rw [if_pos hnonce, if_pos (beq_iff_eq.mpr hnonce)]
    rfl
  · rw [if_neg hnonce, if_neg (fun h => hnonce (beq_iff_eq.mp h))]
    rfl

end

theorem openBody_outcome (entry : KeyEntry) (nonce : Counter.Nonce) (o : Options)
    (source : Source) (sink : Sink) (hfit : source.rest.length ≤ Counter.capacity) :
    (openBody entry nonce o source sink).outcome =
      sink.deliver (Counter.mask entry.cipherKey nonce source.rest)
        (source.conclude
          (.ok (verdict entry.digestKey nonce (Counter.mask entry.cipherKey nonce source.rest)))) := by
  have hreveal := revealAll_eq o entry.digestKey
    (Counter.Cipher.follows_start entry.cipherKey nonce) [] source sink
    (by show 0 + _ ≤ _; omega)
  have hzero : (Counter.Cipher.start entry.cipherKey nonce).position = 0 := rfl
  rw [Hmac.State.start_add_nil, hzero, Nat.zero_add, Counter.maskFrom_zero, List.nil_append,
    ← Counter.length_mask entry.cipherKey nonce] at hreveal
  unfold Sink.deliver Source.conclude at hreveal ⊢
  cases hw : sink.write (Counter.mask entry.cipherKey nonce source.rest) with
  | mk wrote sink' =>
    rw [hw] at hreveal
    cases wrote with
    | error fault => exact openBody_of_error hreveal
    | ok _ =>
      cases hending : source.ending with
      | some fault =>
        rw [hending] at hreveal
        exact openBody_of_error hreveal
      | none =>
        rw [hending] at hreveal
        exact openBody_of_ok hreveal

theorem openBody_of_lt (entry : KeyEntry) (nonce : Counter.Nonce) (o : Options)
    (source : Source) (sink : Sink) (hover : Counter.capacity < source.rest.length) :
    ∃ n, n ≤ Counter.capacity ∧
      (openBody entry nonce o source sink).outcome =
        sink.deliver ((Counter.mask entry.cipherKey nonce source.rest).take n)
          (.error .capacityExceeded) := by
  obtain ⟨front, tail, hsplit, hfront, hreveal⟩ := revealAll_of_lt o
    (Counter.Cipher.follows_start entry.cipherKey nonce) (.start entry.digestKey) source sink
    (Nat.zero_le _) (by show _ < 0 + _; omega)
  have hzero : (Counter.Cipher.start entry.cipherKey nonce).position = 0 := rfl
  rw [hzero, Nat.zero_add] at hfront
  refine ⟨front.length, hfront, ?_⟩
  rw [hsplit, Counter.take_mask_append]
  rw [hzero] at hreveal
  unfold Sink.deliver at hreveal ⊢
  cases hw : sink.write (Counter.maskFrom entry.cipherKey nonce 0 front) with
  | mk wrote sink' =>
    rw [hw] at hreveal
    cases wrote with
    | error fault => exact openBody_of_error hreveal
    | ok _ => exact openBody_of_error hreveal

/-! ## Opening a stream -/

section

variable (choose : Except Error KeyEntry) (o : Options) {source : Source} (sink : Sink)

/-- Data that breaks off inside a header leaves no output. -/
theorem openChoosing_of_broken {fault : LastingFault} (hlen : source.rest.length < headerLength)
    (hending : source.ending = some fault) :
    (openChoosing choose o source sink).outcome = (.error (.io fault), sink) := by
  have hfront := source.fronted_readUpTo headerLength
  unfold openChoosing
  generalize source.readUpTo headerLength = r at hfront
  cases hfront with
  | front s' hlen' _ _ =>
    -- a front that comes up short says that the data ends
    rcases hlen' with h | h
    · omega
    · rw [hending] at h
      cases h
  | broken fault' s' _ hending' =>
    rw [hending] at hending'
    cases hending'
    rfl

/-- Behind the first bytes a stream goes one of three ways. -/
theorem openChoosing_eq (hlen : headerLength ≤ source.rest.length ∨ source.ending = none) :
    ∃ source' : Source, source'.rest = source.rest.drop headerLength ∧
      source'.ending = source.ending ∧
      openChoosing choose o source sink =
        if isEncrypted source.rest then
          match choose with
          | .error e => { result := .error e, sink }
          | .ok entry => openBody entry (nonceIn source.rest) o source' sink
        else passThrough (source.rest.take headerLength) source' sink := by
  have hfront := source.fronted_readUpTo headerLength
  unfold openChoosing
  generalize source.readUpTo headerLength = r at hfront
  cases hfront with
  | front s' _ hrest hending =>
    refine ⟨s', hrest, hending, ?_⟩
    dsimp only
    rw [isEncrypted_take source.rest (Nat.le_refl _)]
    split
    · rename_i h
      have hnonce := nonceIn_take (Nat.le_refl _) h
      cases choose with
      | error e => rfl
      | ok entry => exact congrArg (fun nonce => openBody entry nonce o s' sink) hnonce
    · rfl
  | broken fault s' hlt hending =>
    rcases hlen with h | h
    · omega
    · rw [hending] at h
      cases h

theorem openChoosing_of_plain (hlen : headerLength ≤ source.rest.length ∨ source.ending = none)
    (h : isEncrypted source.rest = false) :
    (openChoosing choose o source sink).outcome =
      sink.deliver source.rest (source.conclude (.ok (.notEncrypted source.rest.length))) := by
  obtain ⟨source', hrest, hending, heq⟩ := openChoosing_eq choose o sink hlen
  rw [heq, h, if_neg Bool.false_ne_true, passThrough_eq, hrest, List.take_append_drop,
    Source.conclude_congr hending]

theorem openChoosing_of_missing (h : isEncrypted source.rest = true) (e : Error) :
    (openChoosing (.error e) o source sink).outcome = (.error e, sink) := by
  obtain ⟨source', _, _, heq⟩ := openChoosing_eq (.error e) o sink
    (Or.inl (length_le_of_isEncrypted h))
  rw [heq, h, if_pos rfl]
  rfl

theorem openChoosing_of_entry (h : isEncrypted source.rest = true) (entry : KeyEntry)
    (hfit : source.rest.length - headerLength ≤ Counter.capacity) :
    (openChoosing (.ok entry) o source sink).outcome =
      sink.deliver (reveal entry source.rest)
        (source.conclude
          (.ok (verdict entry.digestKey (nonceIn source.rest) (reveal entry source.rest)))) := by
  obtain ⟨source', hrest, hending, heq⟩ := openChoosing_eq (.ok entry) o sink
    (Or.inl (length_le_of_isEncrypted h))
  rw [heq, h, if_pos rfl, openBody_outcome _ _ _ _ _ (by rw [hrest, List.length_drop]; exact hfit),
    Source.conclude_congr hending, hrest]
  rfl

theorem openChoosing_of_lt (h : isEncrypted source.rest = true) (entry : KeyEntry)
    (hover : Counter.capacity < source.rest.length - headerLength) :
    ∃ n, n ≤ Counter.capacity ∧
      (openChoosing (.ok entry) o source sink).outcome =
        sink.deliver ((reveal entry source.rest).take n) (.error .capacityExceeded) := by
  obtain ⟨source', hrest, _, heq⟩ := openChoosing_eq (.ok entry) o sink
    (Or.inl (length_le_of_isEncrypted h))
  rw [heq, h, if_pos rfl, reveal, ← hrest]
  apply openBody_of_lt
  rw [hrest, List.length_drop]
  exact hover

end

/-! ## Data that breaks off behind its header -/

section

variable {x : Bytes} {cut : Option (Cut x)}

theorem isEncrypted_delivered (h : ∀ c ∈ cut, headerLength ≤ c.offset) :
    isEncrypted (delivered x cut) = isEncrypted x := by
  cases cut with
  | none => rfl
  | some c => exact isEncrypted_take x (h c rfl)

theorem nonceIn_delivered (h : ∀ c ∈ cut, headerLength ≤ c.offset)
    (hx : isEncrypted x = true) : nonceIn (delivered x cut) = nonceIn x := by
  cases cut with
  | none => rfl
  | some c => exact nonceIn_take (h c rfl) hx

theorem headerLength_le_ofCut (h : ∀ c ∈ cut, headerLength ≤ c.offset) (schedule : Schedule) :
    headerLength ≤ (Source.ofCut x cut schedule).rest.length ∨
      (Source.ofCut x cut schedule).ending = none := by
  cases cut with
  | none => exact Or.inr rfl
  | some c =>
    left
    show headerLength ≤ (x.take c.offset).length
    rw [List.length_take]
    have := h c rfl
    have := c.offset_le
    omega

end

/-- **The exact outcome of opening.** `y` is what the source delivers of `x`, and `q` is what is
revealed in an envelope. Data that breaks off inside the header leaves nothing; a stream without a
header is passed through; an envelope whose key is missing leaves nothing; any other envelope is
revealed as far as it is delivered. The sink holds the first `k` bytes of what is written. -/
theorem openWith_outcome (kf : KeyFile) (o : Options) (x : Bytes) (cut : Option (Cut x))
    (schedule : Schedule) (k : Nat) (refusal : LastingFault) :
    let y := delivered x cut
    let source := Source.ofCut x cut schedule
    let run := openWith kf o source { limit := some k, refusal }
    (∀ c ∈ cut, c.offset < headerLength →
      run.result = .error (.io c.fault) ∧ run.sink.bytes = []) ∧
    ((∀ c ∈ cut, headerLength ≤ c.offset) →
      (isEncrypted x = false →
        run.result =
            (if y.length ≤ k then source.conclude (.ok (.notEncrypted x.length))
            else .error (.io refusal)) ∧
          run.sink.bytes = y.take k) ∧
      (isEncrypted x = true → kf.get? keyVersion = none →
        run.result = .error (.keyNotFound (.version kf.shownName keyVersion)) ∧
          run.sink.bytes = []) ∧
      (isEncrypted x = true → ∀ entry, kf.get? keyVersion = some entry →
        let q := Counter.mask entry.cipherKey (nonceIn x) (y.drop headerLength)
        (q.length ≤ Counter.capacity →
          run.result =
              (if q.length ≤ k then
                source.conclude (.ok
                  (if nonceFor entry.digestKey q = nonceIn x then .authentic q.length
                  else .tampered q.length))
              else .error (.io refusal)) ∧
            run.sink.bytes = q.take k) ∧
        (Counter.capacity < q.length → ∃ n ≤ Counter.capacity,
          run.result = .error (if n ≤ k then .capacityExceeded else .io refusal) ∧
            run.sink.bytes = (q.take n).take k))) := by
  intro y source run
  have hrun : run = openChoosing (kf.require keyVersion) o source { limit := some k, refusal } := rfl
  refine ⟨fun c hc hlt => ?_, fun hcut => ⟨fun hx => ?_, fun hx hget => ?_, fun hx entry hget => ?_⟩⟩
  · -- the source fails before a whole header is there
    have hending : source.ending = some c.fault := Source.ending_ofCut hc schedule
    have hlen : source.rest.length < headerLength := by
      show (delivered x cut).length < headerLength
      rw [hc, delivered, List.length_take]
      omega
    exact Run.of_untouched (openChoosing_of_broken _ o _ hlen hending)
  · -- without a header, everything is passed through
    have hplain : isEncrypted source.rest = false := (isEncrypted_delivered hcut).trans hx
    rw [← Source.conclude_ofCut (fun b => .ok (Opened.notEncrypted b.length))]
    exact Run.of_deliver
      (openChoosing_of_plain _ o _ (headerLength_le_ofCut hcut schedule) hplain)
  · -- the key is asked for before anything is written
    have henc : isEncrypted source.rest = true := (isEncrypted_delivered hcut).trans hx
    rw [hrun, KeyFile.require, hget]
    exact Run.of_untouched (openChoosing_of_missing o _ henc _)
  · have henc : isEncrypted source.rest = true := (isEncrypted_delivered hcut).trans hx
    have hq : reveal entry source.rest =
        Counter.mask entry.cipherKey (nonceIn x) (y.drop headerLength) := by
      rw [reveal, ← nonceIn_delivered hcut hx]
      rfl
    have hnonce : nonceIn source.rest = nonceIn x := nonceIn_delivered hcut hx
    rw [hrun, KeyFile.require, hget]
    intro q
    have hrest : source.rest = y := rfl
    have hlen : q.length = source.rest.length - headerLength := by
      rw [Counter.length_mask, List.length_drop, hrest]
    refine ⟨fun hfit => ?_, fun hover => ?_⟩
    · have hopen := openChoosing_of_entry o { limit := some k, refusal } henc entry (hlen ▸ hfit)
      rw [hq, hnonce] at hopen
      exact Run.of_deliver hopen
    · obtain ⟨n, hn, hopen⟩ := openChoosing_of_lt o { limit := some k, refusal } henc entry
        (hlen ▸ hover)
      rw [hq] at hopen
      exact ⟨n, hn, Run.of_deliver_error (by omega) hopen⟩

end RepoSeal.Envelope
