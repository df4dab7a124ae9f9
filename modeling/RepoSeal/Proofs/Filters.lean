import RepoSeal.Proofs.FirstVersions
import RepoSeal.Proofs.KeyRotation

/-!
# RepoSeal — filters with one key

A filter loads its key, which leaves everything but the log as it was (`exists_on_loadKey`), and then
seals or opens its input. With a key whose one version is version 0, what is sealed is also opened
(`openInput_of_sealInput`): the latest version, which seals, is the one that opens.
-/

namespace RepoSeal

variable {t start : Tree} {kf : KeyFile} {place : Workplace} {key : KeyChoice}

/-! ## Plans that only read -/

namespace Attempt

variable {ε α β : Type}

/-- Every run leaves everything but the log as it was. -/
def Reads (p : Attempt ε α) : Prop := ∀ w : World, ∃ log, (p.on w).2 = { w with log }

theorem reads_fail (e : ε) : (fail e : Attempt ε α).Reads := fun w => ⟨w.log, rfl⟩

theorem reads_ofExcept (r : Except ε α) : (ofExcept r).Reads := fun w => ⟨w.log, rfl⟩

theorem reads_exists (p : Path) : (ask (Plan.exists_ p) : Attempt ε Bool).Reads := by
  intro w
  rw [on_ask, Plan.run_exists]
  exact ⟨w.log, rfl⟩

theorem reads_contents (p : Path) : (orFault (Plan.contents p)).Reads := by
  intro w
  rw [on_orFault]
  exact ⟨w.log, rfl⟩

theorem Reads.bind {p : Attempt ε α} {f : α → Attempt ε β} (hp : p.Reads) (hf : ∀ a, (f a).Reads) :
    (p >>= f).Reads := by
  intro w
  obtain ⟨log, hw⟩ := hp w
  rw [on_bind]
  generalize p.on w = o at hw
  obtain ⟨_ | a, w'⟩ := o
  · exact ⟨log, hw⟩
  · obtain ⟨log', hw'⟩ := hf a w'
    dsimp only at hw ⊢
    rw [hw'.trans (by rw [hw])]
    exact ⟨log', rfl⟩

theorem Reads.inLibrary {p : Attempt Error α} (h : p.Reads) : p.inLibrary.Reads := by
  intro w
  rw [on_inLibrary]
  exact h w

theorem Reads.during {p : Attempt Failure α} (h : p.Reads) (activity : Activity) :
    (p.during activity).Reads := by
  intro w
  rw [on_during]
  exact h w

end Attempt

open Attempt

theorem KeyFile.reads_loadFrom (p : Path) : (loadFrom p).Reads := by
  refine (reads_contents p).bind fun data => ?_
  split
  · exact reads_fail _
  · intro w
    rw [on_mk, loadLogged]
    exact ⟨_, rfl⟩

namespace Workplace

theorem reads_loadKey (place : Workplace) (key : KeyChoice) :
    (place.loadKey key).Reads := by
  refine (reads_ofExcept _).bind fun p => ?_
  refine (reads_exists p).bind fun there => ?_
  split
  · exact ((KeyFile.reads_loadFrom p).inLibrary).during _
  · exact reads_fail _

theorem exists_gives_loadKey (place : Workplace) (key : KeyChoice) (t : Tree) :
    ∃ r, (place.loadKey key).Gives t r := by
  unfold loadKey
  cases (place.keyPath key).mapError Failure.library with
  | error e => exact ⟨_, (gives_ofExcept (.error e)).bind_error⟩
  | ok p =>
    obtain ⟨r, hload⟩ := KeyFile.exists_gives_loadFrom t p
    have hthere : ∃ r, Gives (if decide (t.presence p ≠ .absent) = true
        then ((KeyFile.loadFrom p).inLibrary).during (.loadingKeyFile p)
        else fail (.noKeyFile p)) t r := by
      split
      · exact ⟨_, hload.inLibrary.during _⟩
      · exact ⟨_, gives_fail _⟩
    obtain ⟨r', hthere⟩ := hthere
    exact ⟨r', (gives_ofExcept (.ok p)).bind ((gives_exists p).bind hthere)⟩

/-- A key is loaded from where it lies. -/
theorem gives_loadKey {p : Path} (hpath : place.keyPath key = .ok p)
    (hread : t.contentsAt p = .ok kf.encode) : (place.loadKey key).Gives t (.ok kf) := by
  have hthere : decide (t.presence p ≠ .absent) = true := by
    obtain ⟨loc, mode, hlookup⟩ := Tree.contentsAt_eq_ok.mp hread
    rw [Tree.presence, hlookup]
    rfl
  have hload : (KeyFile.loadFrom p).Gives t (.ok kf) := by
    have hloaded := KeyFile.gives_loadFrom hread
    rwa [KeyFile.loaded_of_magic kf.magic_prefix_encode, KeyFile.decode_encode] at hloaded
  rw [loadKey, hpath]
  refine (gives_ofExcept (.ok p)).bind ((gives_exists p).bind ?_)
  rw [if_pos hthere]
  exact hload.inLibrary.during _

/-- Loading a key, as it goes on any tree. -/
theorem exists_on_loadKey (place : Workplace) (key : KeyChoice) (w : World) :
    ∃ r log, (place.loadKey key).Gives w.tree r ∧
      (place.loadKey key).on w = (r, { w with log }) := by
  obtain ⟨r, hload⟩ := place.exists_gives_loadKey key w.tree
  obtain ⟨log, hworld⟩ := place.reads_loadKey key w
  exact ⟨r, log, hload, Prod.ext (hload w rfl).1 hworld⟩

end Workplace

/-! ## Filters -/

namespace Command

variable {inv : Tree → Prop}

theorem on_writeRun {α : Type} (r : Envelope.Run α) (w : World) :
    (writeRun r).on w =
      (r.result, { w with log := w.log ++ r.log, printed := w.printed ++ r.sink.bytes }) := by
  rw [writeRun, on_bind, on_ask, Plan.run_log]
  dsimp only
  rw [on_bind, on_ask]
  rfl

theorem keeps_writeRun {α : Type} (r : Envelope.Run α) :
    (writeRun r).Keeps inv fun _ => True := by
  intro w hw
  rw [on_writeRun]
  exact ⟨hw, fun _ _ => trivial⟩

theorem still_endOpened (origin : String) (unusual : Bool) (o : Envelope.Opened) :
    (endOpened origin unusual o).Still := by
  cases o with
  | authentic n => exact Plan.still_pure _
  | notEncrypted n => cases unusual <;> exact fun _ => rfl
  | tampered n => exact (Plan.still_log _).bind fun _ => Plan.still_pure _

/-- A filter that has loaded its key leaves the tree as it is. -/
theorem keeps_opened (origin : String) (unusual : Bool) (activity : Activity)
    (r : Envelope.Run Envelope.Opened) :
    (do
      let opened ← (writeRun r).inLibrary.during activity
      Attempt.ask (endOpened origin unusual opened) : Attempt Failure Ending).Keeps inv
      fun _ => True :=
  (((keeps_writeRun r).inLibrary).during activity).andThen fun opened =>
    keeps_ask (still_endOpened origin unusual opened)

theorem keeps_sealInput {scheme : Age.Scheme} (place : Workplace) (key : KeyChoice) :
    (sealInput place key).Keeps (Managed scheme start) fun _ => True := by
  refine (place.keeps_loadKey key).bind fun kf _ => ?_
  refine (keeps_ofExcept fun _ _ => trivial).andThen fun entry => ?_
  refine (keeps_ask Plan.still_input).andThen fun input => ?_
  refine (((keeps_writeRun _).inLibrary).during _).andThen fun bytes => ?_
  exact (keeps_ask (Plan.still_log _)).andThen fun _ => keeps_pure trivial

theorem keeps_openInput {scheme : Age.Scheme} (place : Workplace) (key : KeyChoice) :
    (openInput place key).Keeps (Managed scheme start) fun _ => True := by
  refine (place.keeps_loadKey key).bind fun kf _ => ?_
  refine (keeps_ask Plan.still_input).andThen fun input => ?_
  exact keeps_opened _ _ _ _

theorem keeps_openForDiff {scheme : Age.Scheme} (place : Workplace) (file : Path) (key : KeyChoice) :
    (openForDiff place file key).Keeps (Managed scheme start) fun _ => True := by
  have hopen : ((orBareFault (Plan.openFile file)).during (.openingFile file)).Keeps
      (Managed scheme start) fun _ => True := by
    refine Keeps.during (fun w hw => ?_) _
    rw [on_orBareFault]
    exact ⟨hw, fun _ _ => trivial⟩
  refine hopen.andThen fun source => ?_
  refine (place.keeps_loadKey key).bind fun kf _ => ?_
  exact keeps_opened _ _ _ _

/-- What a key seals is printed. -/
theorem on_sealInput {entry : KeyEntry} {w : World} (hload : (place.loadKey key).Gives w.tree (.ok kf))
    (hlatest : kf.requireLatest = .ok entry) :
    (((sealInput place key).on w).1 = .ok .done ↔
      ∃ n, (Envelope.sealWith entry place.config.options w.input {}).result = .ok n) ∧
    ((sealInput place key).on w).2.tree = w.tree ∧
    ((sealInput place key).on w).2.printed =
      w.printed ++ (Envelope.sealWith entry place.config.options w.input {}).sink.bytes := by
  obtain ⟨r, log, hgives, hon⟩ := place.exists_on_loadKey key w
  have hsame := hgives.unique hload
  rw [sealInput, on_bind, hon, hsame]
  dsimp only
  rw [on_bind, on_ofExcept, hlatest]
  dsimp only [Except.mapError]
  rw [on_bind, on_ask]
  dsimp only [Plan.input, Plan.run]
  rw [on_bind, on_during, on_inLibrary, on_writeRun]
  cases (Envelope.sealWith entry place.config.options w.input {}).result with
  | ok n => exact ⟨⟨fun _ => ⟨n, rfl⟩, fun _ => rfl⟩, rfl, rfl⟩
  | error e =>
    refine ⟨⟨fun h => ?_, fun h => ?_⟩, rfl, rfl⟩
    · cases h
    · obtain ⟨n, hn⟩ := h
      cases hn

/-- Nothing is sealed without a key. -/
theorem exists_of_sealInput {w : World} {ending : Ending}
    (h : ((sealInput place key).on w).1 = .ok ending) :
    ∃ kf entry, (place.loadKey key).Gives w.tree (.ok kf) ∧ kf.requireLatest = .ok entry := by
  obtain ⟨r, log, hgives, hon⟩ := place.exists_on_loadKey key w
  rw [sealInput, on_bind, hon] at h
  cases r with
  | error e => cases h
  | ok kf =>
    dsimp only at h
    rw [on_bind, on_ofExcept] at h
    cases hlatest : kf.requireLatest with
    | error e =>
      rw [hlatest] at h
      cases h
    | ok entry => exact ⟨kf, entry, hgives, hlatest⟩

/-- What is authentic is printed. -/
theorem openInput_authentic {w : World} {n : Nat} (hload : (place.loadKey key).Gives w.tree (.ok kf))
    (hopen : (Envelope.openWith kf place.config.options w.input {}).result = .ok (.authentic n)) :
    ((openInput place key).on w).1 = .ok .done ∧
      ((openInput place key).on w).2.printed =
        w.printed ++ (Envelope.openWith kf place.config.options w.input {}).sink.bytes := by
  obtain ⟨r, log, hgives, hon⟩ := place.exists_on_loadKey key w
  have hsame := hgives.unique hload
  rw [openInput, on_bind, hon, hsame]
  dsimp only
  rw [on_bind, on_ask]
  dsimp only [Plan.input, Plan.run]
  rw [on_bind, on_during, on_inLibrary, on_writeRun, hopen]
  exact ⟨rfl, rfl⟩

open Envelope in
/-- A key with version 0 opens what it sealed. -/
theorem openInput_of_sealInput {scheme : Age.Scheme} {w w' : World} {p : Bytes}
    {schedule schedule' : Schedule} (hw : Managed scheme start w.tree)
    (hinput : w.input = { rest := p, schedule }) (hprinted : w.printed = [])
    (h : ((sealInput place key).on w).1 = .ok .done)
    (htree' : w'.tree = ((sealInput place key).on w).2.tree)
    (hinput' : w'.input = { rest := ((sealInput place key).on w).2.printed, schedule := schedule' }) :
    ((openInput place key).on w').1 = .ok .done ∧
      ((openInput place key).on w').2.printed = w'.printed ++ p := by
  obtain ⟨kf, entry, hload, hlatest⟩ := exists_of_sealInput h
  obtain ⟨hdone, htree, hsink⟩ := on_sealInput hload hlatest
  obtain ⟨n, hsealed⟩ := hdone.mp h
  have hfirst : kf.IsFirst := (place.keeps_loadKey key w hw).2 kf (hload w rfl).1
  obtain ⟨-, hget⟩ := hfirst.requireLatest hlatest
  rw [hinput] at hsealed hsink
  obtain ⟨hbytes, hfit⟩ := enclose_of_sealWith_ok entry hsealed
  rw [hprinted, hbytes, List.nil_append] at hsink
  rw [hsink] at hinput'
  have hlen : (enclose entry p).length - headerLength = p.length := by
    rw [length_enclose, Nat.add_sub_cancel_left]
  obtain ⟨hresult, hrevealed⟩ := openWithEntry_unlimited entry place.config.options schedule'
    (isEncrypted_enclose entry p) (by rwa [hlen])
  rw [isAuthentic_enclose, if_pos rfl, hlen] at hresult
  rw [reveal_enclose] at hrevealed
  have hopen := openWith_eq hget place.config.options w'.input {}
  rw [hinput'] at hopen
  have hload' : (place.loadKey key).Gives w'.tree (.ok kf) := by rwa [htree', htree]
  obtain ⟨hopened, hprinted'⟩ := openInput_authentic (n := p.length) hload'
    (by rw [hinput', hopen, hresult])
  refine ⟨hopened, ?_⟩
  rw [hprinted', hinput', hopen, hrevealed]

end Command

end RepoSeal
