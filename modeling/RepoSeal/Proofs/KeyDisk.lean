import RepoSeal.Command.Keys
import RepoSeal.Proofs.Changes
import RepoSeal.Proofs.KeyFaults
import RepoSeal.Proofs.Unwrapping

/-!
# RepoSeal — key files in a tree

A file is loaded as a key file just if its bytes can be read as one: the look at how they begin refuses
nothing that reading them does not refuse (`gives_loadFrom`, `decode_of_foreign`). A key without framing
is any 96 bytes (`loadLegacy_eq_ok`). Storing a key file makes the directories on the way and then puts
one file, and if it fails it leaves at most directories (`on_storeAt_cases`).
-/

namespace RepoSeal

open Reader

/-! ## Failures of commands -/

namespace Attempt

variable {α : Type}

theorem on_inLibrary (p : Attempt Error α) (w : World) :
    p.inLibrary.on w = ((p.on w).1.mapError .library, (p.on w).2) := by
  unfold on inLibrary ExceptT.adapt
  rw [ExceptT.run_mk]
  exact Plan.run_bind _ _ _

theorem on_during (activity : Activity) (p : Attempt Failure α) (w : World) :
    (p.during activity).on w = ((p.on w).1.mapError (.during activity), (p.on w).2) := by
  unfold on during ExceptT.adapt
  rw [ExceptT.run_mk]
  exact Plan.run_bind _ _ _

theorem on_orBareFault (p : Plan (Except Fault α)) (w : World) :
    (orBareFault p).on w = ((p.run w).1.mapError .fault, (p.run w).2) := by
  unfold on orBareFault
  rw [ExceptT.run_mk, Plan.run_bind]
  rcases p.run w with ⟨_ | _, _⟩ <;> rfl

variable {t : Tree} {r : Except Error α} {r' : Except Failure α}

theorem Gives.inLibrary {p : Attempt Error α} (h : p.Gives t r) :
    p.inLibrary.Gives t (r.mapError .library) := by
  intro w hw
  obtain ⟨hresult, htree⟩ := h w hw
  rw [on_inLibrary, hresult]
  exact ⟨rfl, htree⟩

theorem Gives.during {p : Attempt Failure α} (h : p.Gives t r') (activity : Activity) :
    (p.during activity).Gives t (r'.mapError (.during activity)) := by
  intro w hw
  obtain ⟨hresult, htree⟩ := h w hw
  rw [on_during, hresult]
  exact ⟨rfl, htree⟩

theorem gives_bareContents (p : Path) :
    (orBareFault (Plan.contents p)).Gives t ((t.contentsAt p).mapError .fault) := by
  rintro w rfl
  rw [on_orBareFault, Plan.run_contents]
  exact ⟨rfl, rfl⟩

end Attempt

variable {t : Tree} {p : Path} {b : Bytes}

/-! ## Putting files -/

/-- A file is put where one can be put, and otherwise at most directories are made. -/
theorem Store.on_putBlob_cases (p : Path) (content : Bytes) (w : World) :
    (w.tree.Writable p ∧ ∃ t',
      (w.tree.makeDirectories (Tree.holderOf p)).2.replaceFile p content = .ok t' ∧
        (putBlob p content).on w = (.ok (), { w with tree := t' })) ∨
    (¬ w.tree.Writable p ∧ ∃ e t', w.tree.Widens t' ∧
      (putBlob p content).on w = (.error e, { w with tree := t' })) := by
  have hwidens := w.tree.widens_makeDirectories (Tree.holderOf p)
  rw [on_putBlob]
  unfold Tree.Writable
  generalize w.tree.makeDirectories (Tree.holderOf p) = made at hwidens
  obtain ⟨_ | _, t₁⟩ := made
  · refine .inr ⟨?_, _, _, hwidens, rfl⟩
    rintro ⟨hok, -⟩
    cases hok
  · dsimp only
    cases hput : t₁.replaceFile p content with
    | ok t' => exact .inl ⟨⟨rfl, content, t', hput⟩, t', rfl, rfl⟩
    | error fault =>
      refine .inr ⟨?_, _, _, hwidens, rfl⟩
      rintro ⟨-, content', t', hput'⟩
      obtain ⟨hholder, dir, name, hentry, hfree, -⟩ := Tree.replaceFile_eq_ok.mp hput'
      rw [Tree.replaceFile_eq_ok.mpr ⟨hholder, dir, name, hentry, hfree, rfl⟩] at hput
      cases hput

/-- Where files are accepted, just the file is put. -/
theorem Store.on_putBlob_of_accepts {w : World} {loc : Location} (h : w.tree.Accepts p loc)
    (content : Bytes) :
    (putBlob p content).on w =
      (.ok (), { w with tree := w.tree.put loc (.file content Tree.privateMode) }) := by
  rw [on_putBlob, h.made]
  dsimp only
  rw [h.put content]

namespace KeyFile

theorem storeAt_eq (kf : KeyFile) (p : Path) :
    kf.storeAt p = Store.putBlob p kf.encode >>= fun _ =>
      Attempt.ask (Plan.log [kf.writtenEvent p]) := by
  rw [storeAt, Store.putBlob, bind_assoc]

/-- What storing a key file does to a tree. -/
theorem on_storeAt_cases (kf : KeyFile) (p : Path) (w : World) :
    (w.tree.Writable p ∧ ∃ t' log,
      (w.tree.makeDirectories (Tree.holderOf p)).2.replaceFile p kf.encode = .ok t' ∧
        (kf.storeAt p).on w = (.ok (), { w with tree := t', log })) ∨
    (¬ w.tree.Writable p ∧ ∃ e t', w.tree.Widens t' ∧
      (kf.storeAt p).on w = (.error e, { w with tree := t' })) := by
  rw [storeAt_eq, Attempt.on_bind]
  rcases Store.on_putBlob_cases p kf.encode w with ⟨hwritable, t', hput, hon⟩ | ⟨hnot, e, t', hw, hon⟩
  · rw [hon]
    exact .inl ⟨hwritable, t', _, hput, rfl⟩
  · rw [hon]
    exact .inr ⟨hnot, e, t', hw, rfl⟩

/-! ## Loading -/

theorem format_eq_tagged : format b = .tagged ↔ magic <+: b := by
  rw [← List.isPrefixOf_iff_prefix, format]
  split
  · simp_all
  · simp_all

theorem format_eq_legacy (h : ¬ magic <+: b) : format b = .legacy := by
  cases hformat : format b with
  | legacy => rfl
  | tagged => exact absurd (format_eq_tagged.mp hformat) h

theorem magic_prefix_encode (kf : KeyFile) : magic <+: kf.encode := by
  rw [encode, List.append_assoc, List.append_assoc, List.append_assoc]
  exact List.prefix_append _ _

/-- Bytes that do not begin like a key file are none. -/
theorem decode_of_foreign (h : ¬ magic <+: b) : ∃ cause, decode b = .error (.malformed cause) := by
  by_cases hshort : b.length < 16
  · exact ⟨_, load_of_short (Input.delivers_ofBytes b) hshort⟩
  · obtain ⟨p, version, rest, hp, rfl⟩ := exists_preamble (Nat.le_of_not_lt hshort)
    refine ⟨_, load_of_foreign hp ?_ (Input.delivers_ofBytes _)⟩
    rintro rfl
    rw [List.append_assoc] at h
    exact h (List.prefix_append _ _)

theorem magic_prefix_of_decode {kf : KeyFile} (h : decode b = .ok kf) : magic <+: b := by
  by_contra hforeign
  obtain ⟨cause, herror⟩ := decode_of_foreign hforeign
  rw [h] at herror
  cases herror

/-- What loading the file at `p` comes to that has some bytes. -/
def loaded (p : Path) (b : Bytes) : Except Error KeyFile :=
  match format b with
  | .legacy => .error (.malformed (.unframedKey p))
  | .tagged => decode b

theorem gives_loadFrom (h : t.contentsAt p = .ok b) : (loadFrom p).Gives t (loaded p b) := by
  refine (Attempt.gives_contents h).bind ?_
  unfold loaded
  cases format b with
  | legacy => exact Attempt.gives_fail _
  | tagged => exact Store.gives_loadLogged b

theorem gives_loadFrom_error {fault : Fault} (h : t.contentsAt p = .error fault) :
    (loadFrom p).Gives t (.error (.io fault)) :=
  (Attempt.gives_contents_error h).bind_error

theorem exists_gives_loadFrom (t : Tree) (p : Path) : ∃ r, (loadFrom p).Gives t r := by
  cases h : t.contentsAt p with
  | ok b => exact ⟨_, gives_loadFrom h⟩
  | error fault => exact ⟨_, gives_loadFrom_error h⟩

theorem loaded_of_magic (h : magic <+: b) : loaded p b = decode b := by
  rw [loaded, format_eq_tagged.mpr h]

theorem loaded_of_foreign (h : ¬ magic <+: b) :
    loaded p b = .error (.malformed (.unframedKey p)) := by
  rw [loaded, format_eq_legacy h]

/-- The look at how data begins refuses nothing that can be read. -/
theorem loaded_eq_ok {kf : KeyFile} : loaded p b = .ok kf ↔ decode b = .ok kf := by
  by_cases h : magic <+: b
  · rw [loaded_of_magic h]
  · obtain ⟨cause, hdecode⟩ := decode_of_foreign h
    rw [loaded_of_foreign h, hdecode]
    simp

/-! ## Keys without framing -/

/-- Any bytes that are as many as the material of a key, and no others, are a key without framing. -/
theorem loadLegacy_eq_ok {kf : KeyFile} :
    (loadLegacy (.ofBytes b)).1 = .ok kf ↔
      ∃ material : Octets 96, b = material.toList ∧ kf = .single none (.ofMaterial 0 material) := by
  have hi := Input.delivers_ofBytes b
  rcases loadLegacy_front_cases b with ⟨hshort, hcut⟩ | ⟨material, rest, kf', rfl, hadd, hread⟩
  · rw [hcut _ _ hi]
    constructor
    · intro h
      cases h
    · rintro ⟨material, rfl, -⟩
      exact absurd material.length_toList (Nat.ne_of_lt hshort)
  rw [add_empty] at hadd
  cases hadd
  obtain ⟨i', hi', hload⟩ := hread _ _ hi
  rw [hload]
  by_cases hrest : rest = []
  · subst hrest
    obtain ⟨i₁, hend, -⟩ := (atEnd_of_nil Input.Setting.quiet_memory hi').eq_ok
    rw [hend, List.append_nil]
    constructor
    · intro h
      cases h
      exact ⟨material, rfl, rfl⟩
    · rintro ⟨material', hsame, rfl⟩
      rw [Octets.ext hsame]
      rfl
  · -- something behind the material is refused
    obtain ⟨i₁, hmore, -⟩ := atEnd_of_ne_nil Input.Setting.quiet_memory hi' hrest
    rw [hmore]
    constructor
    · intro h
      cases h
    · rintro ⟨material', hsame, -⟩
      have hlen := congrArg List.length hsame
      rw [List.length_append, material.length_toList, material'.length_toList] at hlen
      exact absurd (List.eq_nil_of_length_eq_zero (by omega)) hrest

end KeyFile

end RepoSeal
