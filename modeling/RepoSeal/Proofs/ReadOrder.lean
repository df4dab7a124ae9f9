import RepoSeal.Proofs.Unwrapping

/-!
# RepoSeal — the order in which directories are read

The entries of a directory come in any order. As long as each version is written in the usual way, that
does not show in a listing, and every row names the place in which that copy is looked for
(`list_anyOrder`). Where a version is written in several ways, the directory that comes last hides the
others, and rows name places where no copy is looked for (`list_zeroPadded`).
-/

namespace RepoSeal

namespace Tree

variable {t t' : Tree}

/-- A tree is sound if each of its nodes has a place of its own in a directory. -/
theorem sound_of_nodes (hnodup : (t.nodes.map Prod.fst).Nodup)
    (hheld : ∀ e ∈ t.nodes, t.find? e.1.dropLast = some .directory) : t.Sound where
  nodup := hnodup
  held := by
    intro dir name node h
    rw [find?_concat, Option.map_eq_some_iff] at h
    obtain ⟨e, he, -⟩ := h
    have hloc : e.1 = dir ++ [name] := by simpa using List.find?_some he
    have hdir := hheld e (List.mem_of_find?_eq_some he)
    rwa [hloc, List.dropLast_concat] at hdir

theorem not_link_of_nodes (h : ∀ e ∈ t.nodes, kindOf e.2 ≠ .link) (at_ : Location) (target : Path) :
    t.find? at_ ≠ some (.link target) := by
  intro hfind
  unfold find? at hfind
  split at hfind
  · cases hfind
  · obtain ⟨e, he, hlink⟩ := Option.map_eq_some_iff.mp hfind
    exact h e (List.mem_of_find?_eq_some he) (congrArg kindOf hlink)

/-- The order of the nodes does not matter for what lies where. -/
theorem find?_of_perm (ht : t.Sound) (ht' : t'.Sound) (hperm : t'.nodes.Perm t.nodes)
    (at_ : Location) : t'.find? at_ = t.find? at_ := by
  rcases List.eq_nil_or_concat' at_ with rfl | ⟨dir, name, rfl⟩
  · rfl
  · refine Option.ext fun node => ?_
    rw [ht.find?_eq_some, ht'.find?_eq_some, hperm.mem_iff]

end Tree

namespace Store

variable {s : Store} {t t' : Tree} {loc : Location} {row : WrappedKey}

/-- Where versions are written in the usual way, a file is listed at the place of its copy. -/
theorem hasFile_iff (ht : t.Sound) (hplain : PlainVersions t loc) :
    s.HasFile t loc row ↔
      ListedFingerprint row.fingerprint ∧
        (t.find? (loc ++ [shownKeyName row.name, toString row.version,
          s.fileName row.fingerprint])).isSome ∧
        row.path = s.blobPath (row.name.map KeyName.text) row.version row.fingerprint := by
  constructor
  · rintro ⟨d, hd, hf, hfile, hpath⟩
    obtain ⟨rfl, -⟩ := (versionDirectory?_eq_some ht hplain).mp hd
    exact ⟨hf, hfile, hpath⟩
  · rintro ⟨hf, hfile, hpath⟩
    refine ⟨toString row.version, (versionDirectory?_eq_some ht hplain).mpr ⟨rfl, ?_⟩, hf, hfile,
      hpath⟩
    obtain ⟨node, hnode⟩ := Option.isSome_iff_exists.mp hfile
    have hbelow : t.find? (loc ++ [shownKeyName row.name, toString row.version] ++
        [s.fileName row.fingerprint]) = some node := by simpa using hnode
    exact ht.held _ _ _ hbelow

section

variable (hsame : ∀ at_, t'.find? at_ = t.find? at_)

include hsame

theorem PlainVersions.congr (hplain : PlainVersions t loc) : PlainVersions t' loc :=
  fun name d v hdir hv => hplain name d v (hsame _ ▸ hdir) hv

theorem Opens.congr (ht : t.Sound) (ht' : t'.Sound) (hplain : PlainVersions t loc)
    (hopens : s.Opens t loc) : s.Opens t' loc := by
  intro name hkey
  rw [hsame] at hkey
  obtain ⟨hfits, hversions⟩ := hopens name hkey
  refine ⟨hfits, fun v d hd => hversions v d ?_⟩
  rw [versionDirectory?_eq_some ht' (hplain.congr hsame), hsame] at hd
  exact (versionDirectory?_eq_some ht hplain).mpr hd

/-- Trees with the same nodes give the same listing. -/
theorem list_congr (ht : t.Sound) (ht' : t'.Sound)
    (hplain : ∀ loc, t.lookup .use s.root = .ok (.found loc .directory) → PlainVersions t loc)
    {r : Except Error (List WrappedKey)} (h : s.list.Gives t r) : s.list.Gives t' r := by
  have hgrows : t.Grows t' := fun at_ node hnode => (hsame at_).trans hnode
  have hgrows' : t'.Grows t := fun at_ node hnode => (hsame at_).symm.trans hnode
  by_cases hroot : ∃ loc, t.lookup .use s.root = .ok (.found loc .directory)
  · obtain ⟨loc, hroot⟩ := hroot
    have hroot' := Tree.lookup_directory_mono (fun at_ => hgrows at_ _) (fun at_ _ => hgrows at_ _) hroot
    have hversions := hplain loc hroot
    have hversions' := hversions.congr hsame
    by_cases hopens : s.Opens t loc
    · -- the rows are the same, and so is their order
      obtain ⟨rows, hrows, hsorted, hmem⟩ := list_rows hroot ht hopens
      obtain ⟨rows', hrows', hsorted', hmem'⟩ :=
        list_rows hroot' ht' (hopens.congr hsame ht ht' hversions)
      have heq : rows = rows' := WrappedKey.Before.eq_of_mem_iff hsorted hsorted' fun row => by
        rw [hmem, hmem', hasFile_iff ht hversions, hasFile_iff ht' hversions', hsame]
      rw [h.unique hrows, heq]
      exact hrows'
    · have hopens' : ¬ s.Opens t' loc := fun hall =>
        hopens (hall.congr (fun at_ => (hsame at_).symm) ht' ht hversions')
      rw [h.unique (list_refused hroot ht hopens)]
      exact list_refused hroot' ht' hopens'
  · have hroot' : ¬ ∃ loc, t'.lookup .use s.root = .ok (.found loc .directory) :=
      fun ⟨loc, hlookup⟩ => hroot ⟨loc, Tree.lookup_directory_mono (fun at_ => hgrows' at_ _)
        (fun at_ _ => hgrows' at_ _) hlookup⟩
    rw [← Tree.presence_eq_directory] at hroot hroot'
    rw [h.unique (list_of_absent hroot)]
    exact list_of_absent hroot'

end

/-- **What is listed, whatever lies in the tree.** The rows are in strict order, and they tell of the
files in the directories that count for the versions of keys; nothing is listed only where there is no
directory of the store or where one of its paths is too long. If versions are written in the usual way,
each row names the place in which its copy is looked for, each file at such a place is listed once, and
the order in which directories are read does not show. -/
theorem list_anyOrder (s : Store) (t : Tree) (ht : t.Sound) :
    (t.presence s.root ≠ .directory → s.list.Gives t (.ok [])) ∧
    (∀ loc, t.lookup .use s.root = .ok (.found loc .directory) →
      (¬ s.Opens t loc → s.list.Gives t (.error (.io .nameTooLong))) ∧
      (s.Opens t loc →
        ∃ rows, s.list.Gives t (.ok rows) ∧ rows.Pairwise WrappedKey.Before ∧
          (∀ row, row ∈ rows ↔ s.HasFile t loc row) ∧
          (PlainVersions t loc →
            (∀ row ∈ rows,
              row.path = s.blobPath (row.name.map KeyName.text) row.version row.fingerprint) ∧
            ∀ name v f, ListedFingerprint f →
              (t.find? (loc ++ [shownKeyName name, toString v, s.fileName f])).isSome →
              rows.count ⟨name, v, f, s.blobPath (name.map KeyName.text) v f⟩ = 1))) ∧
    ((∀ loc, t.lookup .use s.root = .ok (.found loc .directory) → PlainVersions t loc) →
      ∀ t' : Tree, t'.Sound → (∀ at_, t'.find? at_ = t.find? at_) →
        ∀ r, s.list.Gives t r → s.list.Gives t' r) := by
  refine ⟨list_of_absent, fun loc hroot => ⟨list_refused hroot ht, fun hopens => ?_⟩,
    fun hplain t' ht' hsame r h => list_congr hsame ht ht' hplain h⟩
  obtain ⟨rows, hrows, hsorted, hmem⟩ := list_rows hroot ht hopens
  refine ⟨rows, hrows, hsorted, hmem, fun hplain => ⟨fun row hrow => ?_, fun name v f hf hfile => ?_⟩⟩
  · exact ((hasFile_iff ht hplain).mp ((hmem row).mp hrow)).2.2
  · have hnodup : rows.Nodup := hsorted.imp WrappedKey.Before.ne
    exact List.count_eq_one_of_mem hnodup
      ((hmem _).mpr ((hasFile_iff ht hplain).mpr ⟨hf, hfile, rfl⟩))

/-! ## Several directories for one version -/

/-- A store with directories for versions of the default key, in each of which there is a copy for the
same recipient. -/
def shelves (dirs : List String) : Tree where
  nodes := [([".git-crypt"], .directory), ([".git-crypt", "keys"], .directory),
      ([".git-crypt", "keys", "default"], .directory)] ++
    dirs.flatMap fun d =>
      [([".git-crypt", "keys", "default", d], .directory),
        ([".git-crypt", "keys", "default", d, "ann.open"], .file [] Tree.privateMode)]

theorem lookup_shelves (dirs : List String) :
    (shelves dirs).lookup .use openStore.root = .ok (.found [".git-crypt", "keys"] .directory) := by
  have hgoes : (shelves dirs).Goes Tree.maxLinks [] openStore.root.parts Tree.maxLinks
      [".git-crypt", "keys"] :=
    .into (by decide) (by decide) (by decide) (by decide) rfl
      (.into (by decide) (by decide) (by decide) (by decide) rfl (.done _ _))
  have hreaches : (shelves dirs).Reaches openStore.root [".git-crypt", "keys"] :=
    ⟨by decide, by decide, by decide, _, hgoes⟩
  exact hreaches.lookup (by decide)

theorem key_of_shelves {dirs : List String} (h : (shelves dirs).Sound) {name : Option KeyName}
    (hkey : (shelves dirs).find? ([".git-crypt", "keys"] ++ [shownKeyName name]) =
      some .directory) : name = none := by
  have hmem := h.find?_eq_some.mp hkey
  have hshown : shownKeyName name = "default" := by simpa [shelves] using hmem
  exact shownKeyName_injective hshown

theorem version_of_shelves {dirs : List String} (h : (shelves dirs).Sound) {d : String}
    (hd : (shelves dirs).find? ([".git-crypt", "keys", "default"] ++ [d]) = some .directory) :
    d ∈ dirs := by
  have hmem := h.find?_eq_some.mp hd
  simpa [shelves] using hmem

theorem opens_shelves {dirs : List String} (h : (shelves dirs).Sound)
    (hfits : ∀ d ∈ dirs, (openStore.keyDir none / d).Fits) :
    openStore.Opens (shelves dirs) [".git-crypt", "keys"] := by
  intro name hkey
  rw [key_of_shelves h hkey]
  refine ⟨by decide +kernel, fun v d hd => hfits d ?_⟩
  exact version_of_shelves h ((mem_directoriesIn h).mp (mem_of_lastFor? hd).1)

theorem listed_ann : ListedFingerprint "ann" := ⟨by decide, by decide⟩

/-- A version that is written in the usual way. -/
theorem list_anyOrder_shelves :
    (shelves ["0"]).Sound ∧
      ∃ rows, openStore.list.Gives (shelves ["0"]) (.ok rows) ∧
        rows.count ⟨none, 0, "ann", ⟨".git-crypt/keys/default/0/ann.open"⟩⟩ = 1 := by
  have hsound : (shelves ["0"]).Sound := Tree.sound_of_nodes (by decide) (by decide)
  have hplain : PlainVersions (shelves ["0"]) [".git-crypt", "keys"] := by
    intro name d v hdir hv
    rw [List.append_cons] at hdir
    rw [key_of_shelves hsound (hsound.held _ _ _ hdir)] at hdir
    have hd := version_of_shelves hsound hdir
    rw [List.mem_singleton.mp hd] at hv ⊢
    cases hv.symm.trans (version?_toString 0)
    rfl
  obtain ⟨-, hlist, -⟩ := list_anyOrder openStore (shelves ["0"]) hsound
  obtain ⟨rows, hrows, -, -, hrest⟩ :=
    (hlist _ (lookup_shelves ["0"])).2 (opens_shelves hsound (by decide +kernel))
  exact ⟨hsound, rows, hrows, (hrest hplain).2 none 0 "ann" listed_ann (by decide)⟩

/-- A directory `01` counts as that of version 1. So what lies in it is listed, though no copy is looked
for there; and it is hidden by a directory `1`, or hides it, depending on which one is read last. -/
theorem list_zeroPadded :
    (∃ rows, openStore.list.Gives (shelves ["01"]) (.ok rows) ∧
      ∃ row ∈ rows, row.path ≠
        openStore.blobPath (row.name.map KeyName.text) row.version row.fingerprint) ∧
    (shelves ["1", "01"]).Sound ∧ (shelves ["01", "1"]).Sound ∧
    (∀ at_, (shelves ["01", "1"]).find? at_ = (shelves ["1", "01"]).find? at_) ∧
    ∃ rows rows', openStore.list.Gives (shelves ["1", "01"]) (.ok rows) ∧
      openStore.list.Gives (shelves ["01", "1"]) (.ok rows') ∧ rows ≠ rows' := by
  let padded : WrappedKey := ⟨none, 1, "ann", openStore.keyDir none / "01" / "ann.open"⟩
  have hsound : (shelves ["01"]).Sound := Tree.sound_of_nodes (by decide) (by decide)
  have hlast : (shelves ["1", "01"]).Sound := Tree.sound_of_nodes (by decide) (by decide)
  have hfirst : (shelves ["01", "1"]).Sound := Tree.sound_of_nodes (by decide) (by decide)
  have hperm : (shelves ["01", "1"]).nodes.Perm (shelves ["1", "01"]).nodes :=
    ((List.Perm.swap "1" "01" []).flatMap_right _).append_left _
  refine ⟨?_, hlast, hfirst, Tree.find?_of_perm hlast hfirst hperm, ?_⟩
  · obtain ⟨rows, hrows, -, hmem⟩ :=
      list_rows (lookup_shelves ["01"]) hsound (opens_shelves hsound (by decide +kernel))
    have hpadded : openStore.HasFile (shelves ["01"]) [".git-crypt", "keys"] padded :=
      ⟨"01", by decide +kernel, listed_ann, by decide, rfl⟩
    exact ⟨rows, hrows, padded, (hmem _).mpr hpadded, by decide +kernel⟩
  · obtain ⟨rows, hrows, -, hmem⟩ :=
      list_rows (lookup_shelves ["1", "01"]) hlast (opens_shelves hlast (by decide +kernel))
    obtain ⟨rows', hrows', -, hmem'⟩ :=
      list_rows (lookup_shelves ["01", "1"]) hfirst (opens_shelves hfirst (by decide +kernel))
    -- the padded directory counts only where it comes last
    have hpadded : padded ∈ rows := (hmem _).mpr ⟨"01", by decide +kernel, listed_ann, by decide, rfl⟩
    have hhidden : padded ∉ rows' := by
      intro hrow
      obtain ⟨d, hd, -, -, hpath⟩ := (hmem' _).mp hrow
      have hone : versionDirectory? (shelves ["01", "1"]) [".git-crypt", "keys"] none 1 = some "1" := by
        decide +kernel
      rw [← Option.some.inj (hone.symm.trans hd)] at hpath
      revert hpath
      decide +kernel
    refine ⟨rows, rows', hrows, hrows', ?_⟩
    rintro rfl
    exact hhidden hpadded

end Store

end RepoSeal
