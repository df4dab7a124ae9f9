import RepoSeal.Proofs.KeyVersions

/-!
# RepoSeal — runs of operations on a key file

A key file changes by operations, each of which makes a new key file or fails. Of one that fails nothing
is left, so a run goes on from the key file before it (`afterEdit`). What one operation keeps
(`get?_of_result`) is kept by every run (`get?_afterEdits`): the material of a version stays the same
for as long as no operation replaces the key file by another one.
-/

namespace RepoSeal.KeyFile

/-- An operation on a key file. -/
inductive Edit
  | fresh
  | named (name : Option String)
  | rename (name : Option String)
  | add (entry : KeyEntry)
  /-- Generates a version from the random bytes that the surroundings give. -/
  | generate (w : World)
  | load (input : Input)
  | loadLegacy (input : Input)

/-- What an operation makes of a key file. Some make a new one, whatever the old one is. -/
def Edit.result (kf : KeyFile) : Edit → Except Error KeyFile
  | fresh => .ok (empty none)
  | named name => KeyFile.named name
  | rename name => kf.rename name
  | add entry => kf.add entry
  | generate w => Prod.snd <$> (kf.generateFresh.on w).1
  | load input => (KeyFile.load input).1
  | loadLegacy input => (KeyFile.loadLegacy input).1

/-- An operation that changes a key file without replacing it. -/
inductive Edit.Extends : Edit → Prop
  | rename (name : Option String) : Extends (.rename name)
  | add (entry : KeyEntry) : Extends (.add entry)
  | generate (w : World) : Extends (.generate w)

/-- The key file after an operation. -/
def afterEdit (kf : KeyFile) (edit : Edit) : KeyFile :=
  match edit.result kf with
  | .ok kf' => kf'
  | .error _ => kf

def afterEdits (kf : KeyFile) (edits : List Edit) : KeyFile := edits.foldl afterEdit kf

/-! ## Single operations -/

theorem text_of_parse {text : String} {name : KeyName} (h : KeyName.parse text = .ok name) :
    name.text = text := by
  unfold KeyName.parse at h
  split at h
  · rename_i name' hname
    cases h
    exact KeyName.ofText_eq_ok.mp hname
  · cases h

theorem rename_eq_ok {kf kf' : KeyFile} {name : Option String} (h : kf.rename name = .ok kf') :
    kf'.name.map KeyName.text = name ∧ kf'.entries = kf.entries := by
  unfold rename at h
  cases name with
  | none =>
    cases h
    exact ⟨rfl, rfl⟩
  | some text =>
    dsimp only at h
    cases hn : KeyName.parse text with
    | error e =>
      rw [hn] at h
      cases h
    | ok n =>
      rw [hn] at h
      cases h
      exact ⟨congrArg some (text_of_parse hn), rfl⟩

theorem add_fails_iff {kf : KeyFile} {entry : KeyEntry} :
    (∃ e, kf.add entry = .error e) ↔ ∃ e, kf.get? entry.version = some e := by
  constructor
  · rintro ⟨e, he⟩
    obtain ⟨-, x, hx, hv⟩ := add_eq_error.mp he
    exact ⟨x, get?_eq_some.mpr ⟨hx, hv⟩⟩
  · rintro ⟨x, hx⟩
    exact ⟨_, add_eq_error.mpr ⟨rfl, x, get?_eq_some.mp hx⟩⟩

/-- The version that is generated, or that there is none. -/
theorem generate_version (kf : KeyFile) (material : Octets 96) :
    (kf.latest? = none → ∃ kf', kf.generate material = .ok (0, kf')) ∧
      (∀ v, kf.latest? = some v → v ≠ 0xffffffff →
        ∃ v' kf', kf.generate material = .ok (v', kf') ∧ v'.toNat = v.toNat + 1) ∧
      ((∃ e, kf.generate material = .error e) ↔ kf.latest? = some 0xffffffff) := by
  rcases kf.generate_eq material with ⟨v', kf', hnext, -, hgen⟩ | ⟨hlatest, hgen⟩
  · rw [hgen]
    unfold nextVersion versionAfter at hnext
    refine ⟨fun hnone => ?_, fun v hv hmax => ?_, fun ⟨e, he⟩ => (by cases he), fun hv => ?_⟩
    · rw [hnone] at hnext
      cases hnext
      exact ⟨kf', rfl⟩
    · rw [hv] at hnext
      simp only [if_neg hmax] at hnext
      cases hnext
      refine ⟨v + 1, kf', rfl, ?_⟩
      have hlt := v.toNat_lt
      have hne : v.toNat ≠ 0xffffffff := fun h => hmax (UInt32.toNat_inj.mp h)
      rw [UInt32.toNat_add]
      exact Nat.mod_eq_of_lt (by show v.toNat + 1 < 2 ^ 32; omega)
    · rw [hv] at hnext
      cases hnext
  · rw [hgen, hlatest]
    refine ⟨fun h => (by cases h), fun v hv hmax => ?_, fun _ => rfl, fun _ => ⟨_, rfl⟩⟩
    cases hv
    exact absurd rfl hmax

/-! ## What an operation keeps -/

theorem get?_of_result {kf kf' : KeyFile} {edit : Edit} (hext : edit.Extends)
    (h : edit.result kf = .ok kf') {v : UInt32} {e : KeyEntry} (he : kf.get? v = some e) :
    kf'.get? v = some e := by
  have hadd : ∀ {entry : KeyEntry} {kf' : KeyFile}, kf.add entry = .ok kf' →
      kf'.get? v = some e := by
    intro entry kf' h
    rw [get?_add h]
    split
    · -- the added version was not there
      rename_i hv
      obtain ⟨hmem, hev⟩ := get?_eq_some.mp he
      exact absurd (hev.trans hv) ((add_eq_ok_iff.mp h).1 e hmem)
    · exact he
  cases hext with
  | rename name =>
    rw [get?, (rename_eq_ok h).2]
    exact he
  | add entry => exact hadd h
  | generate w =>
    have hresult : Prod.snd <$> (kf.generateFresh.on w).1 = .ok kf' := h
    rw [result_generateFresh] at hresult
    rcases kf.generate_eq (w.draw 96).1 with ⟨v', kf'', -, hok, hgen⟩ | ⟨-, hgen⟩
    · rw [hgen] at hresult
      cases hresult
      exact hadd hok
    · rw [hgen] at hresult
      cases hresult

theorem get?_afterEdit {kf : KeyFile} {edit : Edit} (hext : edit.Extends) {v : UInt32}
    {e : KeyEntry} (he : kf.get? v = some e) : (kf.afterEdit edit).get? v = some e := by
  unfold afterEdit
  split
  · rename_i kf' h
    exact get?_of_result hext h he
  · exact he

/-- Material stays through every run of operations that do not replace the key file. -/
theorem get?_afterEdits {kf : KeyFile} {edits : List Edit} (hext : ∀ edit ∈ edits, edit.Extends)
    {v : UInt32} {e : KeyEntry} (he : kf.get? v = some e) :
    (kf.afterEdits edits).get? v = some e := by
  induction edits generalizing kf with
  | nil => exact he
  | cons edit edits ih =>
    exact ih (fun x hx => hext x (List.mem_cons_of_mem _ hx))
      (get?_afterEdit (hext edit List.mem_cons_self) he)

end RepoSeal.KeyFile
