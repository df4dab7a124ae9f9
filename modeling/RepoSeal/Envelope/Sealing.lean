import RepoSeal.Envelope.Buffer

/-!
# RepoSeal — sealing a stream

The first pass reads the plaintext to its end, digests it and holds it; the second pass combines it
with the keystream and writes it behind the header. Nothing is written before the first pass is done,
so a plaintext that cannot be read, or that is too long, leaves no output.
-/

namespace RepoSeal.Envelope

/-- The event that tells of a plaintext that is too long. -/
def tooLongEvent (o : Options) : LogEvent :=
  ⟨.warn, .codec, "file too long to encrypt securely", [("limit", .number o.maxPlaintext)]⟩

/-- The first pass: reads, digests and holds the plaintext. -/
def gather (o : Options) (source : Source) (digest : Hmac.State) (buffer : PlaintextBuffer)
    (log : Log) : Except Error (Hmac.State × PlaintextBuffer) × Log :=
  match _h : source.readSome o.piece with
  | (.error fault, _) => (.error (.io fault), log)
  | (.ok [], _) => (.ok (digest, buffer), log)
  | (.ok (x :: b), source') =>
    let piece := x :: b
    if o.maxPlaintext ≤ buffer.size + piece.length then
      (.error .capacityExceeded, log ++ [tooLongEvent o])
    else
      let log' := if buffer.spillsFirst piece then log ++ [buffer.spillEvent] else log
      gather o source' (digest.add piece) (buffer.write piece) log'
termination_by source.rest.length
decreasing_by exact Source.readSome_lt _h

/-- One step of the second pass: combines a piece with the keystream and writes it. -/
def emit (st : Counter.Cipher × Sink) (piece : Bytes) : Except Error Unit × Counter.Cipher × Sink :=
  match st.1.process piece with
  | .error e => (.error e, st)
  | .ok (out, cipher) =>
    match st.2.write out with
    | (.ok _, sink) => (.ok (), cipher, sink)
    | (.error fault, sink) => (.error (.io fault), cipher, sink)

/-- The second pass: the header, then the plaintext combined with the keystream. -/
def emitAll (o : Options) (scratchReads : Schedule) (key : Aes.Key) (nonce : Counter.Nonce)
    (buffer : PlaintextBuffer) (sink : Sink) : Except Error Unit × Sink :=
  match sink.write magic with
  | (.error fault, s) => (.error (.io fault), s)
  | (.ok _, s) =>
    match s.write nonce.toList with
    | (.error fault, s') => (.error (.io fault), s')
    | (.ok _, s') =>
      let (result, _, s'') :=
        buffer.replay scratchReads o.piece emit (Counter.Cipher.start key nonce, s')
      (result, s'')

/-- The event that tells of a sealed plaintext. -/
def sealedEvent (entry : KeyEntry) (buffer : PlaintextBuffer) (nonce : Counter.Nonce) : LogEvent :=
  ⟨.debug, .codec, "encrypted",
    [("bytes", .number buffer.size), ("spilled", .flag buffer.spilled),
      ("nonce", .text (hexText nonce.toList)), ("key_version", .number entry.version.toNat)]⟩

/-- Writes the envelope of everything from the source. The result is the plaintext's length;
`scratchReads` is how the scratch file hands its bytes back. -/
def sealWith (entry : KeyEntry) (o : Options) (source : Source) (sink : Sink)
    (scratchReads : Schedule := .prompt) : Run Nat :=
  match gather o source (.start entry.digestKey) { threshold := o.spillThreshold } [] with
  | (.error e, log) => { result := .error e, sink, log }
  | (.ok (digest, buffer), log) =>
    let nonce := Hmac.nonceOf digest.finish
    match emitAll o scratchReads entry.cipherKey nonce buffer sink with
    | (.error e, sink') => { result := .error e, sink := sink', log }
    | (.ok _, sink') =>
      { result := .ok buffer.size, sink := sink', log := log ++ [sealedEvent entry buffer nonce] }

/-- Writes the envelope of everything from the source under the greatest version of a key. -/
def sealLatest (kf : KeyFile) (source : Source) (sink : Sink) : Run Nat :=
  match kf.requireLatest with
  | .error e => { result := .error e, sink }
  | .ok entry => sealWith entry {} source sink

end RepoSeal.Envelope
