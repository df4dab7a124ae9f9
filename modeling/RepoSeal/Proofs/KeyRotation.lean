import RepoSeal.Proofs.KeyRuns
import RepoSeal.Proofs.RoundTrip

/-!
# RepoSeal — sealing and opening with one key

Sealing takes the newest version of a key. Opening takes version 0 always, for an envelope does not
say which version it was sealed under. So a key that has only version 0 opens what it seals, and a key
without version 0 opens nothing. In between, what is opened is the plaintext under both keystreams
(`reveal_enclose_of_entries`), and only by chance does it have the nonce of the envelope. What a key
opens stays the same for as long as versions are only added (`openWith_afterEdits`).
-/

namespace RepoSeal.Envelope

open KeyFile (Edit)

variable {kf : KeyFile}

/-! ## Which entry is taken -/

theorem sealLatest_eq {latest : KeyEntry} (h : kf.getLatest? = some latest) (source : Source)
    (sink : Sink) : sealLatest kf source sink = sealWith latest {} source sink := by
  rw [sealLatest, KeyFile.requireLatest, h]

theorem openWith_eq {first : KeyEntry} (h : kf.get? keyVersion = some first) (o : Options)
    (source : Source) (sink : Sink) :
    openWith kf o source sink = openWithEntry first o source sink := by
  rw [openWith, KeyFile.require, h]
  rfl

theorem openWith_of_missing (h : kf.get? keyVersion = none) (o : Options) {e : Bytes}
    (he : isEncrypted e = true) (schedule : Schedule) (sink : Sink) :
    (openWith kf o { rest := e, schedule } sink).outcome =
      (.error (.keyNotFound (.version kf.shownName keyVersion)), sink) := by
  rw [openWith, KeyFile.require, h]
  exact openChoosing_of_missing o sink he _

theorem get?_latest {latest : KeyEntry} (h : kf.getLatest? = some latest) :
    kf.get? latest.version = some latest :=
  KeyFile.get?_eq_some.mpr ⟨(KeyFile.getLatest?_eq_some.mp h).1, rfl⟩

/-- What a key opens does not change while its version 0 stays. -/
theorem openWith_afterEdits {first : KeyEntry} (h : kf.get? keyVersion = some first)
    {edits : List Edit} (hext : ∀ edit ∈ edits, edit.Extends) (o : Options) (source : Source)
    (sink : Sink) : openWith (kf.afterEdits edits) o source sink = openWith kf o source sink := by
  rw [openWith_eq h, openWith_eq (KeyFile.get?_afterEdits hext h)]

/-! ## An envelope under another entry -/

section

variable (sealer opener : KeyEntry) (p : Bytes)

/-- Another entry finds the plaintext under the keystreams of both. -/
theorem reveal_enclose_of_entries :
    reveal opener (enclose sealer p) =
      Counter.mask opener.cipherKey (nonceFor sealer.digestKey p)
        (Counter.mask sealer.cipherKey (nonceFor sealer.digestKey p) p) := by
  rw [reveal, nonceIn_enclose, enclose, drop_header]

theorem mask_mask_eq_xorBytes (key key' : Aes.Key) (nonce : Counter.Nonce) :
    Counter.mask key' nonce (Counter.mask key nonce p) =
      xorBytes (xorBytes p (Counter.keystream key nonce p.length))
        (Counter.keystream key' nonce p.length) := by
  rw [Counter.mask, Counter.length_mask, Counter.mask]

/-- Two nonces agree where the digests agree in their first bytes. -/
theorem nonceFor_eq_iff (key key' : Hmac.Key) (a b : Bytes) :
    nonceFor key a = nonceFor key' b ↔
      (Hmac.digest key a).toList.take 12 = (Hmac.digest key' b).toList.take 12 :=
  ⟨congrArg Octets.toList, fun h => Octets.ext h⟩

/-- Opening what another entry sealed. -/
theorem openWithEntry_enclose (o : Options) (schedule : Schedule) (hfit : p.length ≤ Counter.capacity) :
    let q := reveal opener (enclose sealer p)
    (openWithEntry opener o { rest := enclose sealer p, schedule } {}).result =
        .ok (if (Hmac.digest opener.digestKey q).toList.take 12 =
            (Hmac.digest sealer.digestKey p).toList.take 12 then .authentic p.length
          else .tampered p.length) ∧
      (openWithEntry opener o { rest := enclose sealer p, schedule } {}).sink.bytes = q := by
  intro q
  have hlen : (enclose sealer p).length - headerLength = p.length := by
    rw [length_enclose, Nat.add_sub_cancel_left]
  have hauthentic : isAuthentic opener (enclose sealer p) = true ↔
      (Hmac.digest opener.digestKey q).toList.take 12 =
        (Hmac.digest sealer.digestKey p).toList.take 12 := by
    rw [isAuthentic, beq_iff_eq, nonceIn_enclose, nonceFor_eq_iff]
  obtain ⟨hresult, hbytes⟩ := openWithEntry_unlimited opener o schedule
    (isEncrypted_enclose sealer p) (by rwa [hlen])
  rw [hlen] at hresult
  simp only [hauthentic] at hresult
  exact ⟨hresult, hbytes⟩

end

/-! ## One key on both sides -/

/-- **What a key makes of its own envelopes.** Sealing succeeds, and the entry that sealed opens what
it sealed. The key itself opens its envelopes if version 0 is its newest; if it has no version 0 it opens
none, and writes nothing; with a version 0 it writes the plaintext under the keystreams of the newest
version and of version 0, and reports it as authentic exactly if the two digests agree in front. New versions and
another name change nothing of what a key with version 0 opens, whether or not they succeed. -/
theorem openWith_sealLatest (kf : KeyFile) (latest : KeyEntry)
    (hlatest : kf.getLatest? = some latest) (p : Bytes) (hfit : p.length < Counter.capacity)
    (o : Options) (schedule schedule' : Schedule) :
    let sealing := sealLatest kf { rest := p, schedule } {}
    let envelope : Source := { rest := sealing.sink.bytes, schedule := schedule' }
    let nonce := nonceIn sealing.sink.bytes
    let opening := openWith kf o envelope {}
    let reopening := openWithEntry latest o envelope {}
    sealing.result = .ok p.length ∧
    (latest.version = 0 →
      opening.result = .ok (.authentic p.length) ∧ opening.sink.bytes = p) ∧
    (kf.get? 0 = none →
      opening.result = .error (.keyNotFound (.version kf.shownName 0)) ∧
        opening.sink.bytes = []) ∧
    (∀ first, kf.get? 0 = some first →
      let q := xorBytes (xorBytes p (Counter.keystream latest.cipherKey nonce p.length))
        (Counter.keystream first.cipherKey nonce p.length)
      q.length = p.length ∧ opening.sink.bytes = q ∧
        opening.result =
          .ok (if (Hmac.digest first.digestKey q).toList.take 12 =
              (Hmac.digest latest.digestKey p).toList.take 12 then .authentic p.length
            else .tampered p.length)) ∧
    (reopening.result = .ok (.authentic p.length) ∧ reopening.sink.bytes = p) ∧
    (∀ edits : List Edit, (∀ edit ∈ edits, edit.Extends) → ∀ first, kf.get? 0 = some first →
      ∀ (o : Options) (source : Source) (sink : Sink),
        openWith (kf.afterEdits edits) o source sink = openWith kf o source sink) := by
  intro sealing envelope nonce opening reopening
  have hfit' : p.length ≤ Counter.capacity := Nat.le_of_lt hfit
  -- everything is about the one envelope that sealing writes
  obtain ⟨hsealed, hbytes⟩ : sealing.result = .ok p.length ∧
      sealing.sink.bytes = enclose latest p := by
    show (sealLatest kf { rest := p, schedule } {}).result = _ ∧
      (sealLatest kf { rest := p, schedule } {}).sink.bytes = _
    rw [sealLatest_eq hlatest]
    exact sealWith_unlimited latest {} p schedule .prompt hfit hfit'
  have henvelope : envelope = { rest := enclose latest p, schedule := schedule' } :=
    congrArg (fun rest => ({ rest, schedule := schedule' } : Source)) hbytes
  have hnonce : nonce = nonceFor latest.digestKey p :=
    (congrArg nonceIn hbytes).trans (nonceIn_enclose latest p)
  -- for the entry that sealed, both keystreams are one, and so are both digests
  have hreopened : reopening.result = .ok (.authentic p.length) ∧ reopening.sink.bytes = p := by
    have h := openWithEntry_enclose latest latest p o schedule' hfit'
    simp only [reveal_enclose, if_true] at h
    show (openWithEntry latest o envelope {}).result = _ ∧
      (openWithEntry latest o envelope {}).sink.bytes = _
    rw [henvelope]
    exact h
  refine ⟨hsealed, fun hzero => ?_, fun hmissing => ?_, fun first hfirst => ?_, hreopened,
    fun edits hext first hfirst o' source sink => openWith_afterEdits hfirst hext o' source sink⟩
  · have hget : kf.get? latest.version = some latest := get?_latest hlatest
    rw [hzero] at hget
    have hsame : opening = reopening := openWith_eq hget o envelope {}
    rw [hsame]
    exact hreopened
  · have hopen : opening.outcome = (.error (.keyNotFound (.version kf.shownName 0)), {}) := by
      show (openWith kf o envelope {}).outcome = _
      rw [henvelope]
      exact openWith_of_missing hmissing o (isEncrypted_enclose latest p) schedule' {}
    exact ⟨congrArg Prod.fst hopen, congrArg (fun r => r.2.bytes) hopen⟩
  · intro q
    have hq : reveal first (enclose latest p) = q := by
      rw [reveal_enclose_of_entries, mask_mask_eq_xorBytes, ← hnonce]
    obtain ⟨hresult, hopened⟩ := openWithEntry_enclose latest first p o schedule' hfit'
    rw [hq] at hresult hopened
    have hopening : opening = openWithEntry first o
        { rest := enclose latest p, schedule := schedule' } {} := by
      show openWith kf o envelope {} = _
      rw [henvelope]
      exact openWith_eq hfirst o _ {}
    rw [hopening]
    refine ⟨?_, hopened, hresult⟩
    rw [← hq, length_reveal, length_enclose, Nat.add_sub_cancel_left]

/-- A key whose newest version is 3, with version 0 still there. -/
theorem openWith_sealLatest_rotated :
    let first : KeyEntry := ⟨0, .replicate 32 7, .replicate 64 9⟩
    let latest : KeyEntry := ⟨3, .replicate 32 1, .replicate 64 2⟩
    let kf : KeyFile := ⟨none, [latest, first], by decide⟩
    let p : Bytes := List.replicate 40 5
    let sealing := sealLatest kf { rest := p } {}
    let nonce := nonceIn sealing.sink.bytes
    kf.getLatest? = some latest ∧ p.length < Counter.capacity ∧
      (openWith kf {} { rest := sealing.sink.bytes } {}).sink.bytes =
        xorBytes (xorBytes p (Counter.keystream latest.cipherKey nonce p.length))
          (Counter.keystream first.cipherKey nonce p.length) := by
  intro first latest kf p sealing nonce
  have hlatest : kf.getLatest? = some latest := rfl
  have hfirst : kf.get? 0 = some first := by decide
  have hfit : p.length < Counter.capacity := by decide
  have h := openWith_sealLatest kf latest hlatest p hfit {} .prompt .prompt
  exact ⟨hlatest, hfit, (h.2.2.2.1 first hfirst).2.1⟩

end RepoSeal.Envelope
