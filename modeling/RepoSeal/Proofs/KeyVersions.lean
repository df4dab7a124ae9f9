import RepoSeal.Key.Disk
import RepoSeal.Proofs.Plans
import Mathlib.Data.List.Nodup

/-!
# RepoSeal — the versions of a key file

A key file is a map from version numbers to key material with an order on its versions. This module
says what each operation does to that map: looking up (`get?_eq_some`), adding (`add_eq_ok_iff`,
`get?_add`) and generating (`generate_eq`). Nothing else about a key file can be seen: two of one name
with the same entries are equal (`ext_of_mem`).
-/

namespace RepoSeal.KeyFile

/-! ## Looking versions up -/

theorem versions_nodup (kf : KeyFile) : (kf.entries.map KeyEntry.version).Nodup := by
  refine List.pairwise_map.mpr (kf.descending.imp fun {a b} hlt heq => ?_)
  rw [heq] at hlt
  exact UInt32.lt_irrefl _ hlt

theorem eq_of_version_eq {kf : KeyFile} {a b : KeyEntry} (ha : a ∈ kf.entries)
    (hb : b ∈ kf.entries) (h : a.version = b.version) : a = b :=
  List.inj_on_of_nodup_map kf.versions_nodup ha hb h

theorem get?_eq_some {kf : KeyFile} {v : UInt32} {e : KeyEntry} :
    kf.get? v = some e ↔ e ∈ kf.entries ∧ e.version = v := by
  constructor
  · intro h
    exact ⟨List.mem_of_find?_eq_some h, by simpa using List.find?_some h⟩
  · rintro ⟨he, rfl⟩
    -- some entry of that version is found, and there is no second one
    cases hf : kf.get? e.version with
    | none =>
      have hnot := List.find?_eq_none.mp hf e he
      simp at hnot
    | some e' =>
      have he' : e' ∈ kf.entries := List.mem_of_find?_eq_some hf
      have hv : e'.version = e.version := by simpa using List.find?_some hf
      rw [eq_of_version_eq he' he hv]

theorem get?_eq_none {kf : KeyFile} {v : UInt32} :
    kf.get? v = none ↔ ∀ e ∈ kf.entries, e.version ≠ v := by
  rw [get?, List.find?_eq_none]
  simp

/-- A key file is its name and the set of its entries. -/
theorem ext_of_mem {a b : KeyFile} (hname : a.name = b.name)
    (hmem : ∀ e, e ∈ a.entries ↔ e ∈ b.entries) : a = b := by
  have hnodup : ∀ kf : KeyFile, kf.entries.Nodup := fun kf => kf.versions_nodup.of_map _
  have hperm : a.entries.Perm b.entries :=
    (List.perm_ext_iff_of_nodup (hnodup a) (hnodup b)).mpr hmem
  have hentries : a.entries = b.entries :=
    -- a strict order leaves one way to put them down
    hperm.eq_of_pairwise (fun x y _ _ hxy hyx => absurd (UInt32.lt_trans hxy hyx)
      (UInt32.lt_irrefl _)) a.descending b.descending
  obtain ⟨name, entries, _⟩ := a
  obtain ⟨name', entries', _⟩ := b
  cases hname
  cases hentries
  rfl

/-! ## The newest version -/

theorem latest?_eq_map (kf : KeyFile) : kf.latest? = kf.getLatest?.map KeyEntry.version := rfl

theorem latest?_eq_none {kf : KeyFile} : kf.latest? = none ↔ kf.entries = [] := by
  rw [latest?, Option.map_eq_none_iff, List.head?_eq_none_iff]

theorem getLatest?_eq_none {kf : KeyFile} : kf.getLatest? = none ↔ kf.entries = [] :=
  List.head?_eq_none_iff

theorem getLatest?_eq_some {kf : KeyFile} {e : KeyEntry} :
    kf.getLatest? = some e ↔ e ∈ kf.entries ∧ ∀ x ∈ kf.entries, x.version ≤ e.version := by
  obtain ⟨name, entries, hd⟩ := kf
  cases entries with
  | nil => simp [getLatest?]
  | cons first rest =>
    obtain ⟨hlt, -⟩ := List.pairwise_cons.mp hd
    have hmax : ∀ x ∈ first :: rest, x.version ≤ first.version := by
      intro x hx
      rcases List.mem_cons.mp hx with rfl | hx
      · exact UInt32.le_refl _
      · exact UInt32.le_of_lt (hlt x hx)
    constructor
    · intro h
      cases h
      exact ⟨List.mem_cons_self, hmax⟩
    · rintro ⟨he, hle⟩
      rcases List.mem_cons.mp he with rfl | he
      · rfl
      · exact absurd (hlt e he) (UInt32.not_lt.mpr (hle first List.mem_cons_self))

theorem latest?_eq_some {kf : KeyFile} {v : UInt32} :
    kf.latest? = some v ↔
      (∃ e ∈ kf.entries, e.version = v) ∧ ∀ e ∈ kf.entries, e.version ≤ v := by
  rw [latest?_eq_map, Option.map_eq_some_iff]
  constructor
  · rintro ⟨e, he, rfl⟩
    obtain ⟨hmem, hmax⟩ := getLatest?_eq_some.mp he
    exact ⟨⟨e, hmem, rfl⟩, hmax⟩
  · rintro ⟨⟨e, hmem, rfl⟩, hmax⟩
    exact ⟨e, getLatest?_eq_some.mpr ⟨hmem, hmax⟩, rfl⟩

/-! ## Adding a version -/

theorem insertEntry_eq_none (entry : KeyEntry) {es : List KeyEntry}
    (hd : es.Pairwise fun a b => b.version < a.version) :
    insertEntry entry es = none ↔ ∃ e ∈ es, e.version = entry.version := by
  induction es with
  | nil => simp [insertEntry]
  | cons first rest ih =>
    obtain ⟨hlt, hrest⟩ := List.pairwise_cons.mp hd
    unfold insertEntry
    by_cases hnewer : first.version < entry.version
    · -- all that follow are older still
      rw [if_pos hnewer]
      refine ⟨fun h => (by cases h), ?_⟩
      rintro ⟨e, he, hv⟩
      rcases List.mem_cons.mp he with rfl | he
      · rw [hv] at hnewer
        exact absurd hnewer (UInt32.lt_irrefl _)
      · have hlt' := hlt e he
        rw [hv] at hlt'
        exact absurd (UInt32.lt_trans hlt' hnewer) (UInt32.lt_irrefl _)
    · rw [if_neg hnewer]
      by_cases hsame : first.version = entry.version
      · rw [if_pos hsame]
        exact ⟨fun _ => ⟨first, List.mem_cons_self, hsame⟩, fun _ => rfl⟩
      · rw [if_neg hsame, Option.map_eq_none_iff, ih hrest]
        simp [hsame]

/-- Adding fails only for a version that is there already. -/
theorem add_eq_error {kf : KeyFile} {entry : KeyEntry} {e : Error} :
    kf.add entry = .error e ↔
      e = .malformed (.duplicateVersion entry.version) ∧
        ∃ x ∈ kf.entries, x.version = entry.version := by
  rw [← insertEntry_eq_none entry kf.descending]
  unfold add
  split
  · rename_i es h
    simp [h]
  · rename_i h
    simp [h, eq_comm]

theorem add_eq_ok_iff {kf kf' : KeyFile} {entry : KeyEntry} :
    kf.add entry = .ok kf' ↔
      (∀ x ∈ kf.entries, x.version ≠ entry.version) ∧ kf'.name = kf.name ∧
        ∀ x, x ∈ kf'.entries ↔ x = entry ∨ x ∈ kf.entries := by
  have hnone := insertEntry_eq_none entry kf.descending
  constructor
  · intro h
    unfold add at h
    split at h
    · rename_i es hes
      cases h
      refine ⟨fun x hx hv => ?_, rfl, fun x => mem_insertEntry hes⟩
      rw [hnone.mpr ⟨x, hx, hv⟩] at hes
      cases hes
    · cases h
  · rintro ⟨hnew, hname, hmem⟩
    unfold add
    split
    · rename_i es hes
      congr 1
      exact ext_of_mem hname.symm fun x => (mem_insertEntry hes).trans (hmem x).symm
    · rename_i hes
      obtain ⟨x, hx, hv⟩ := hnone.mp hes
      exact absurd hv (hnew x hx)

theorem exists_add {kf : KeyFile} {entry : KeyEntry}
    (h : ∀ x ∈ kf.entries, x.version ≠ entry.version) : ∃ kf', kf.add entry = .ok kf' := by
  cases ha : kf.add entry with
  | ok kf' => exact ⟨kf', rfl⟩
  | error e =>
    obtain ⟨-, x, hx, hv⟩ := add_eq_error.mp ha
    exact absurd hv (h x hx)

theorem get?_add {kf kf' : KeyFile} {entry : KeyEntry} (h : kf.add entry = .ok kf') (v : UInt32) :
    kf'.get? v = if v = entry.version then some entry else kf.get? v := by
  obtain ⟨hnew, -, hmem⟩ := add_eq_ok_iff.mp h
  by_cases hv : v = entry.version
  · rw [if_pos hv]
    exact get?_eq_some.mpr ⟨(hmem entry).mpr (.inl rfl), hv.symm⟩
  · rw [if_neg hv]
    apply Option.ext
    intro e
    rw [get?_eq_some, get?_eq_some, hmem]
    constructor
    · rintro ⟨rfl | he, hev⟩
      · exact absurd hev.symm hv
      · exact ⟨he, hev⟩
    · rintro ⟨he, hev⟩
      exact ⟨.inr he, hev⟩

/-! ## Generating a version -/

/-- The version after the newest one is not there yet. -/
theorem exists_add_next {kf : KeyFile} {v : UInt32} (h : kf.nextVersion = .ok v)
    (material : Octets 96) : ∃ kf', kf.add (.ofMaterial v material) = .ok kf' := by
  apply exists_add
  intro x hx hxv
  have hxv' : x.version = v := hxv
  unfold nextVersion versionAfter at h
  split at h
  · rename_i hlatest
    rw [latest?_eq_none.mp hlatest] at hx
    cases hx
  · rename_i w hlatest
    have hle := (latest?_eq_some.mp hlatest).2 x hx
    split at h
    · cases h
    · -- not the greatest number, so counting on does not wrap around
      rename_i hmax
      cases h
      rw [hxv', UInt32.le_iff_toNat_le, UInt32.toNat_add] at hle
      have hlt := w.toNat_lt
      have hne : w.toNat ≠ 0xffffffff := fun hw => hmax (UInt32.toNat_inj.mp hw)
      have hone : (1 : UInt32).toNat = 1 := rfl
      omega

/-- Generating adds the next version, and fails only if there is none. -/
theorem generate_eq (kf : KeyFile) (material : Octets 96) :
    (∃ v kf', kf.nextVersion = .ok v ∧ kf.add (.ofMaterial v material) = .ok kf' ∧
      kf.generate material = .ok (v, kf')) ∨
      (kf.latest? = some 0xffffffff ∧ kf.generate material = .error .versionsExhausted) := by
  cases hnext : kf.nextVersion with
  | ok v =>
    obtain ⟨kf', hadd⟩ := exists_add_next hnext material
    refine .inl ⟨v, kf', rfl, hadd, ?_⟩
    rw [generate, hnext]
    show (kf.add (.ofMaterial v material) >>= fun kf' => pure (v, kf')) = _
    rw [hadd]
    rfl
  | error e =>
    have hlast : kf.latest? = some 0xffffffff ∧ e = .versionsExhausted := by
      unfold nextVersion versionAfter at hnext
      split at hnext
      · cases hnext
      · rename_i w hlatest
        split at hnext
        · rename_i hmax
          cases hnext
          exact ⟨hmax ▸ hlatest, rfl⟩
        · cases hnext
    refine .inr ⟨hlast.1, ?_⟩
    rw [generate, hnext, hlast.2]
    rfl

/-- Where the surroundings give random bytes, a fresh version is generated from those. -/
theorem result_generateFresh (kf : KeyFile) (w : World) :
    (kf.generateFresh.on w).1 = kf.generate (w.draw 96).1 := by
  unfold generateFresh
  rw [Attempt.on_bind, Attempt.on_ofExcept]
  cases hnext : kf.nextVersion with
  | error e =>
    rw [generate, hnext]
    rfl
  | ok v =>
    dsimp only
    rw [Attempt.on_bind, Attempt.on_ask, Plan.run_random]
    dsimp only
    rw [Attempt.on_bind, Attempt.on_ofExcept]
    cases kf.generate (w.draw 96).1 with
    | error e => rfl
    | ok r => rfl

end RepoSeal.KeyFile
