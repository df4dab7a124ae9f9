import RepoSeal.Proofs.Register
import RepoSeal.Proofs.Rows

/-!
# RepoSeal — listing copies

In a tree that mirrors a register the directories of keys and versions and the files in them are all
there is. So each version has the one directory that is named after it, and the rows of a listing are
the copies of the register, in order (`Mirrors.list`).
-/

namespace RepoSeal

/-- A line that tells of a copy in a register. -/
def Register.HasRow (r : Register) (s : Store) (row : WrappedKey) : Prop :=
  (r.copies row.name row.version row.fingerprint).isSome ∧
    row.path = s.blobPath (row.name.map KeyName.text) row.version row.fingerprint

namespace Store

variable {t : Tree} {s : Store} {front names : List String} {dir : Location} {first : String}
  {r : Register} {name : Option KeyName} {v : UInt32} {d : String}

namespace Mirrors

/-- Where the store has a directory, its root leads there. -/
theorem lookup_root (h : s.Mirrors front dir names first t r) (hs : s.Placed front names first)
    (hroot : t.find? (dir ++ names) = some .directory) :
    t.lookup .use s.root = .ok (.found (dir ++ names) .directory) :=
  h.site.lookup_of_some hs.root_below hs.head_eq (h.root_fits hs hroot) hroot

/-- Where it has none, its root leads to none. -/
theorem presence_root (h : s.Mirrors front dir names first t r) (hs : s.Placed front names first)
    (hroot : t.find? (dir ++ names) ≠ some .directory) : t.presence s.root ≠ .directory :=
  fun hdir => hroot (h.site.find?_of_presence hs.root_below hs.head_eq hdir)

/-- Each version has the directory that is named after it, and no other one. -/
theorem plainVersions (h : s.Mirrors front dir names first t r) (hs : s.Placed front names first) :
    PlainVersions t (dir ++ names) := by
  intro name d v hdir hv
  rw [List.append_cons, List.append_assoc dir] at hdir
  obtain ⟨w, rfl⟩ := h.version_of_key hs hdir
  rw [version?_toString] at hv
  rw [Option.some.inj hv]

theorem versionDirectory?_mirrored (h : s.Mirrors front dir names first t r)
    (hs : s.Placed front names first) :
    versionDirectory? t (dir ++ names) name v = some d ↔
      d = toString v ∧ t.find? (dir ++ versionNames names name v) = some .directory := by
  rw [versionDirectory?_eq_some h.site.sound (h.plainVersions hs)]
  refine and_congr_right fun hd => ?_
  rw [hd, versionNames, ← List.append_assoc]

/-- The keys that have a directory, in order. -/
theorem keyNames (h : s.Mirrors front dir names first t r) (hs : s.Placed front names first) :
    ∃ keys, s.keyNames.Gives t (.ok keys) ∧ keys.Pairwise KeyLt ∧
      ∀ name, name ∈ keys ↔
        t.find? (dir ++ (names ++ [shownKeyName name])) = some .directory := by
  by_cases hroot : t.find? (dir ++ names) = some .directory
  · obtain ⟨keys, hkeys, hsorted, hmem⟩ := keyNames_rows (h.lookup_root hs hroot) h.site.sound
    exact ⟨keys, hkeys, hsorted, fun name => by rw [hmem, List.append_assoc]⟩
  · -- without a directory of the store there is none of a key
    refine ⟨[], keyNames_of_absent (h.presence_root hs hroot), List.Pairwise.nil, fun name => ?_⟩
    refine ⟨fun hname => absurd hname List.not_mem_nil, fun hdir => absurd ?_ hroot⟩
    rw [← List.append_assoc] at hdir
    exact h.site.sound.held _ _ _ hdir

theorem opens (h : s.Mirrors front dir names first t r) (hs : s.Placed front names first) :
    s.Opens t (dir ++ names) := by
  intro name hkey
  rw [List.append_assoc] at hkey
  refine ⟨h.keyDir_fits hs hkey, fun v d hd => ?_⟩
  obtain ⟨rfl, hdir⟩ := (h.versionDirectory?_mirrored hs).mp hd
  exact h.versionDir_fits hs hdir

/-- The files that are listed are the copies of the register. -/
theorem hasFile_iff (h : s.Mirrors front dir names first t r) (hs : s.Placed front names first)
    (row : WrappedKey) : s.HasFile t (dir ++ names) row ↔ r.HasRow s row := by
  have hplace : dir ++ names ++
      [shownKeyName row.name, toString row.version, s.fileName row.fingerprint] =
        dir ++ versionNames names row.name row.version ++ [s.fileName row.fingerprint] := by
    simp [versionNames]
  constructor
  · rintro ⟨d, hd, hf, hfile, hpath⟩
    obtain ⟨rfl, -⟩ := (h.versionDirectory?_mirrored hs).mp hd
    obtain ⟨node, hnode⟩ := Option.isSome_iff_exists.mp hfile
    rw [hplace] at hnode
    obtain ⟨f, hname, hplain, hcopy⟩ := h.copy_of_version hs hnode
    -- the name of the file gives the recipient back
    have hread : s.fingerprintOf (s.fileName row.fingerprint) = some row.fingerprint :=
      fingerprintOf_eq_some.mpr ⟨rfl, hf⟩
    rw [hname, fingerprintOf_fileName hplain] at hread
    rw [Option.some.inj hread] at hcopy
    exact ⟨hcopy, hpath⟩
  · rintro ⟨hcopy, hpath⟩
    obtain ⟨entry, hentry⟩ := Option.isSome_iff_exists.mp hcopy
    obtain ⟨content, mode, seed, trusted, hnode, -⟩ := h.filed _ _ _ _ hentry
    obtain ⟨-, hf, -⟩ := h.sane _ _ _ _ hentry
    refine ⟨toString row.version,
      (h.versionDirectory?_mirrored hs).mpr ⟨rfl, h.directory_of_copy hcopy⟩, hf.listed, ?_, hpath⟩
    rw [place, ← List.append_assoc] at hnode
    rw [hplace, hnode]
    rfl

/-- The list has one line for each copy in the register, in order. -/
theorem list (h : s.Mirrors front dir names first t r) (hs : s.Placed front names first) :
    ∃ rows, s.list.Gives t (.ok rows) ∧ rows.Pairwise WrappedKey.Before ∧
      ∀ row, row ∈ rows ↔ r.HasRow s row := by
  by_cases hroot : t.find? (dir ++ names) = some .directory
  · obtain ⟨rows, hrows, hsorted, hmem⟩ :=
      list_rows (h.lookup_root hs hroot) h.site.sound (h.opens hs)
    exact ⟨rows, hrows, hsorted, fun row => (hmem row).trans (h.hasFile_iff hs row)⟩
  · -- without a directory of the store there is none of a version
    refine ⟨[], list_of_absent (h.presence_root hs hroot), List.Pairwise.nil, fun row => ?_⟩
    refine ⟨fun hrow => absurd hrow List.not_mem_nil, fun hrow => absurd ?_ hroot⟩
    have hversion := h.directory_of_copy hrow.1
    rw [versionNames, ← List.append_assoc] at hversion
    exact h.site.sound.directory_of_below (List.cons_ne_nil _ _) hversion

end Mirrors

end Store

end RepoSeal
