import RepoSeal.Envelope.Format

/-!
# RepoSeal — opening a stream

A stream that does not begin with an envelope header is passed through as it is, and no key is asked
for. An envelope is opened in one pass: its plaintext is written piece by piece before the digest can
be compared, so a `tampered` outcome means that bytes were written which nobody sealed.
-/

namespace RepoSeal.Envelope

/-- How an opened stream ended; `bytes` were written. -/
inductive Opened
  /-- The plaintext has the envelope's nonce. -/
  | authentic (bytes : Nat)
  /-- There was no envelope header; the stream was passed through. -/
  | notEncrypted (bytes : Nat)
  /-- The bytes written do not have the envelope's nonce. -/
  | tampered (bytes : Nat)
deriving DecidableEq, Repr

namespace Opened

/-- The number of bytes written. -/
def bytesWritten : Opened → Nat
  | authentic n => n
  | notEncrypted n => n
  | tampered n => n

/-- Whether an authentic envelope was opened. -/
def isAuthentic : Opened → Bool
  | authentic _ => true
  | _ => false

/-- The strict view, in which anything but an authentic envelope is an error. -/
def strict : Opened → Except Error Nat
  | authentic n => .ok n
  | notEncrypted _ => .error .notEncrypted
  | tampered _ => .error .tampered

end Opened

/-- How many bytes are read at once where data is copied unchanged. -/
def copyPiece : Nat := 8192

/-- Copies the source to its end, and counts the bytes. -/
def copyAll (source : Source) (sink : Sink) (count : Nat) : Except Error Nat × Sink :=
  match _h : source.readSome copyPiece with
  | (.error fault, _) => (.error (.io fault), sink)
  | (.ok [], _) => (.ok count, sink)
  | (.ok (x :: b), source') =>
    match sink.write (x :: b) with
    | (.error fault, sink') => (.error (.io fault), sink')
    | (.ok _, sink') => copyAll source' sink' (count + (b.length + 1))
termination_by source.rest.length
decreasing_by exact Source.readSome_lt _h

/-- Passes a stream through whose first bytes have been read. -/
def passThrough (front : Bytes) (source : Source) (sink : Sink) : Run Opened :=
  match sink.write front with
  | (.error fault, sink') => { result := .error (.io fault), sink := sink' }
  | (.ok _, sink') =>
    match copyAll source sink' front.length with
    | (.error e, sink'') => { result := .error e, sink := sink'' }
    | (.ok n, sink'') => { result := .ok (.notEncrypted n), sink := sink'' }

/-- Reads pieces, combines them with the keystream, digests and writes them, to the end. -/
def revealAll (o : Options) (cipher : Counter.Cipher) (digest : Hmac.State) (source : Source)
    (sink : Sink) : Except Error (Nat × Hmac.State) × Sink :=
  match _h : source.readSome o.piece with
  | (.error fault, _) => (.error (.io fault), sink)
  | (.ok [], _) => (.ok (cipher.position, digest), sink)
  | (.ok (x :: b), source') =>
    match cipher.process (x :: b) with
    | .error e => (.error e, sink)
    | .ok (out, cipher') =>
      match sink.write out with
      | (.error fault, sink') => (.error (.io fault), sink')
      | (.ok _, sink') => revealAll o cipher' (digest.add out) source' sink'
termination_by source.rest.length
decreasing_by exact Source.readSome_lt _h

/-- The event that tells of an opened envelope. -/
def openedEvent (bytes : Nat) (nonce : Counter.Nonce) : LogEvent :=
  ⟨.debug, .codec, "decrypted",
    [("bytes", .number bytes), ("nonce", .text (hexText nonce.toList))]⟩

/-- The event that tells of an envelope that is not authentic. -/
def tamperedEvent (bytes : Nat) (nonce : Counter.Nonce) : LogEvent :=
  ⟨.warn, .codec, "integrity check failed",
    [("bytes", .number bytes), ("nonce", .text (hexText nonce.toList))]⟩

/-- Opens an envelope whose header has been read. -/
def openBody (entry : KeyEntry) (nonce : Counter.Nonce) (o : Options) (source : Source)
    (sink : Sink) : Run Opened :=
  match revealAll o (.start entry.cipherKey nonce) (.start entry.digestKey) source sink with
  | (.error e, sink') => { result := .error e, sink := sink' }
  | (.ok (bytes, digest), sink') =>
    if Hmac.matchesNonce digest.finish nonce then
      { result := .ok (.authentic bytes), sink := sink', log := [openedEvent bytes nonce] }
    else
      { result := .ok (.tampered bytes), sink := sink', log := [tamperedEvent bytes nonce] }

/-- Opens a stream. The entry is chosen only when there is an envelope to open. -/
def openChoosing (choose : Except Error KeyEntry) (o : Options) (source : Source) (sink : Sink) :
    Run Opened :=
  match source.readUpTo headerLength with
  | (.error fault, _) => { result := .error (.io fault), sink }
  | (.ok front, source') =>
    if isEncrypted front then
      match choose with
      | .error e => { result := .error e, sink }
      | .ok entry => openBody entry (nonceIn front) o source' sink
    else passThrough front source' sink

/-- Opens a stream with the entry for envelopes of a key. -/
def openWith (kf : KeyFile) (o : Options) (source : Source) (sink : Sink) : Run Opened :=
  openChoosing (kf.require keyVersion) o source sink

/-- Opens a stream with a given entry. -/
def openWithEntry (entry : KeyEntry) (o : Options) (source : Source) (sink : Sink) : Run Opened :=
  openChoosing (.ok entry) o source sink

end RepoSeal.Envelope
