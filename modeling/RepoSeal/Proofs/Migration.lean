import RepoSeal.Command.Session
import RepoSeal.Proofs.KeyDisk

/-!
# RepoSeal — converting keys without framing

A key without framing is 96 bytes that do not begin like a key file. Just such a file can be converted
(`on_convertKey_unframed`), so it is none that can be loaded or installed (`gives_installKeys_foreign`).
What comes of it is a key file at the destination, and nothing else in the tree is different but for
directories on the way.
-/

namespace RepoSeal.Command

variable {w : World} {t : Tree} {old new : Path} {b : Bytes} {place : Workplace}

/-- The key file that the material of a key without framing becomes. -/
def framed (material : Octets 96) : KeyFile := .single none (.ofMaterial 0 material)

/-- Bytes that are a key without framing. -/
def IsUnframed (b : Bytes) : Prop := b.length = KeyEntry.materialLength ∧ ¬ KeyFile.magic <+: b

/-! ## What is converted -/

theorem gives_readOld (h : t.contentsAt old = .ok b) :
    ((Attempt.orBareFault (Plan.contents old)).during (.readingFile old)).Gives t (.ok b) := by
  have hread := (Attempt.gives_bareContents (t := t) old).during (.readingFile old)
  rw [h] at hread
  exact hread

theorem gives_convertKey_unreadable {fault : Fault} (h : t.contentsAt old = .error fault) :
    (convertKey old new).Gives t (.error (.during (.readingFile old) (.fault fault))) := by
  have hread := (Attempt.gives_bareContents (t := t) old).during (.readingFile old)
  rw [h] at hread
  exact hread.bind_error

theorem gives_convertKey_tagged (h : t.contentsAt old = .ok b) (hmagic : KeyFile.magic <+: b) :
    (convertKey old new).Gives t (.error (.alreadyCurrent old)) := by
  refine (gives_readOld h).bind ?_
  rw [KeyFile.format_eq_tagged.mpr hmagic]
  exact Attempt.gives_fail _

/-- What is no key without framing is refused before anything is written. -/
theorem gives_convertKey_refused (new : Path) (h : t.contentsAt old = .ok b) (hnot : ¬ IsUnframed b) :
    ∃ e, (convertKey old new).Gives t (.error e) := by
  by_cases hmagic : KeyFile.magic <+: b
  · exact ⟨_, gives_convertKey_tagged h hmagic⟩
  cases hload : (KeyFile.loadLegacy (.ofBytes b)).1 with
  | ok kf =>
    obtain ⟨material, rfl, -⟩ := KeyFile.loadLegacy_eq_ok.mp hload
    exact absurd ⟨material.length_toList, hmagic⟩ hnot
  | error e =>
    refine ⟨.during (.readingLegacyKey old) (.library e), (gives_readOld h).bind ?_⟩
    rw [KeyFile.format_eq_legacy hmagic]
    dsimp only
    rw [hload]
    exact ((Attempt.gives_ofExcept (.error (.library e))).during _).bind_error

/-- A key without framing is stored as a key file, if it can be. -/
theorem on_convertKey_unframed (new : Path) {material : Octets 96}
    (h : w.tree.contentsAt old = .ok material.toList)
    (hforeign : ¬ KeyFile.magic <+: material.toList) :
    (w.tree.Writable new ∧ ∃ t',
      (w.tree.makeDirectories (Tree.holderOf new)).2.replaceFile new (framed material).encode = .ok t' ∧
      ((convertKey old new).on w).1 = .ok .done ∧ ((convertKey old new).on w).2.tree = t') ∨
    (¬ w.tree.Writable new ∧ ∃ e, ((convertKey old new).on w).1 = .error e ∧
      w.tree.Widens ((convertKey old new).on w).2.tree) := by
  have hload : (KeyFile.loadLegacy (.ofBytes material.toList)).1 = .ok (framed material) :=
    KeyFile.loadLegacy_eq_ok.mpr ⟨material, rfl, rfl⟩
  rw [convertKey, Attempt.on_bind, Attempt.on_during, Attempt.on_orBareFault, Plan.run_contents, h]
  dsimp only [Except.mapError]
  rw [KeyFile.format_eq_legacy hforeign, hload]
  dsimp only [Except.mapError]
  rw [Attempt.on_bind, Attempt.on_during, Attempt.on_ofExcept]
  dsimp only [Except.mapError]
  rw [Attempt.on_bind, Attempt.on_inLibrary]
  rcases (framed material).on_storeAt_cases new w with
    ⟨hwritable, t', log, hput, hon⟩ | ⟨hnot, e, t', hwidens, hon⟩
  · rw [hon]
    exact .inl ⟨hwritable, t', hput, rfl, rfl⟩
  · rw [hon]
    exact .inr ⟨hnot, _, rfl, hwidens⟩

theorem on_convertKey_of_accepts {loc : Location} {material : Octets 96}
    (h : w.tree.contentsAt old = .ok material.toList)
    (hforeign : ¬ KeyFile.magic <+: material.toList) (hnew : w.tree.Accepts new loc) :
    ((convertKey old new).on w).1 = .ok .done ∧
      ((convertKey old new).on w).2.tree =
        w.tree.put loc (.file (framed material).encode Tree.privateMode) := by
  rcases on_convertKey_unframed new h hforeign with ⟨-, t', hput, hresult, htree⟩ | ⟨hnot, -⟩
  · rw [hnew.made, hnew.put] at hput
    cases hput
    exact ⟨hresult, htree⟩
  · exact absurd hnew.writable hnot

/-! ## What is installed -/

/-- Among files to be installed there is none that does not begin like a key file. -/
theorem gives_loadKeys_foreign {files : List Path} {f : Path} (hf : f ∈ files)
    (h : t.contentsAt (f.expandHome place.home) = .ok b) (hforeign : ¬ KeyFile.magic <+: b) :
    ∃ e, (place.loadKeys files).Gives t (.error e) := by
  induction files with
  | nil => cases hf
  | cons p rest ih =>
    obtain ⟨r, hr⟩ := KeyFile.exists_gives_loadFrom t (p.expandHome place.home)
    have hload := hr.inLibrary.during (.loadingKeyFile p)
    rw [Workplace.loadKeys]
    cases r with
    | error e => exact ⟨_, hload.bind_error⟩
    | ok kf =>
      rcases List.mem_cons.mp hf with rfl | hrest
      · have hrefused := KeyFile.gives_loadFrom h
        rw [KeyFile.loaded_of_foreign hforeign] at hrefused
        have hsame := hr.unique hrefused
        cases hsame
      · obtain ⟨e, hfails⟩ := ih hrest
        exact ⟨e, hload.bind hfails.bind_error⟩

theorem gives_installKeys_foreign {files : List Path} {f : Path} (hf : f ∈ files)
    (h : t.contentsAt (f.expandHome place.home) = .ok b) (hforeign : ¬ KeyFile.magic <+: b) :
    ∃ e, (installKeys place files).Gives t (.error e) := by
  obtain ⟨e, hfails⟩ := gives_loadKeys_foreign hf h hforeign
  have hfiles : files.isEmpty = false := List.isEmpty_eq_false_iff.mpr (List.ne_nil_of_mem hf)
  refine ⟨e, ?_⟩
  rw [installKeys, hfiles, if_neg Bool.false_ne_true]
  exact hfails.bind_error

/-! ## What comes of it -/

/-- The tree after a key without framing was converted: a key file lies at the entry that the destination
names, and every other file or link is as before. The key file can be loaded from the destination, unless
the way there led through a link in its place; converting it again is refused. -/
structure Converted (t : Tree) (new : Path) (material : Octets 96) (t' : Tree) : Prop where
  placed : ∃ dir name, (t.makeDirectories (Tree.holderOf new)).2.NamesEntry new dir name ∧
    t'.find? (dir ++ [name]) = some (.file (framed material).encode Tree.privateMode) ∧
    ∀ loc, loc ≠ dir ++ [name] → ∀ node, node ≠ .directory →
      (t'.find? loc = some node ↔ t.find? loc = some node)
  loads : (t.makeDirectories (Tree.holderOf new)).2.OwnPlace new ∨ (∃ c, t.contentsAt new = .ok c) →
    (KeyFile.loadFrom new).Gives t' (.ok (framed material))
  final : ∀ (place : Workplace) (newer : Path), ∃ e,
    ((Command.migrateKey new newer).run place).Gives t' (.error e)

theorem converted_of_replaceFile {material : Octets 96} {t' : Tree}
    (h : (t.makeDirectories (Tree.holderOf new)).2.replaceFile new (framed material).encode = .ok t') :
    Converted t new material t' := by
  have hwidens := t.widens_makeDirectories (Tree.holderOf new)
  have hmagic := (framed material).magic_prefix_encode
  obtain ⟨hholder, dir, name, hentry, -, hput⟩ := Tree.replaceFile_eq_ok.mp h
  refine ⟨⟨dir, name, hentry, ?_, fun loc hloc node hnode => ?_⟩, fun hown => ?_, fun place newer => ?_⟩
  · rw [hput, Tree.find?_put, if_pos rfl]
  · rw [hput, Tree.find?_put, if_neg hloc]
    exact hwidens.find?_iff hnode
  · have hplace : (t.makeDirectories (Tree.holderOf new)).2.OwnPlace new := by
      rcases hown with hown | ⟨c, hread⟩
      · exact hown
      · exact Tree.ownPlace_of_contentsAt hholder (hwidens.grows.contentsAt hread)
    have hload := KeyFile.gives_loadFrom (Tree.contentsAt_replaceFile h hplace)
    rwa [KeyFile.loaded_of_magic hmagic, KeyFile.decode_encode] at hload
  · -- what is read at the destination, if anything, is the key file
    cases hread : t'.contentsAt new with
    | error fault => exact ⟨_, gives_convertKey_unreadable hread⟩
    | ok b =>
      rw [Tree.eq_of_contentsAt_replaceFile h hread] at hread
      exact ⟨_, gives_convertKey_tagged hread hmagic⟩

/-- **Keys with and without framing.** For every file that can be read, loading it comes to decoding its
bytes. It is converted just if it is a key without framing and the destination can be written, so it is
none that can be installed. A conversion gives a key file with the key at the destination, and is never
repeated; one that fails changes no file, and of what it leaves there are at most directories. -/
theorem migrateKey_exact (place : Workplace) {old : Path} (new : Path)
    (h : w.tree.contentsAt old = .ok b) :
    (∃ r, (KeyFile.loadFrom old).Gives w.tree r ∧ (∀ kf, r = .ok kf ↔ KeyFile.decode b = .ok kf) ∧
      (¬ KeyFile.magic <+: b → (∃ cause, r = .error (.malformed cause)) ∧
        ∃ cause, KeyFile.decode b = .error (.malformed cause))) ∧
    (w.tree.Writable new →
      ((((Command.migrateKey old new).run place).on w).1 = .ok .done ↔ IsUnframed b)) ∧
    (∀ ending, (((Command.migrateKey old new).run place).on w).1 = .ok ending →
      (∃ material : Octets 96, b = material.toList ∧
        Converted w.tree new material (((Command.migrateKey old new).run place).on w).2.tree) ∧
      ∀ (place : Workplace) (files : List Path), ∀ f ∈ files,
        w.tree.contentsAt (f.expandHome place.home) = .ok b →
        ∃ e, ((Command.unlock files).run place).Gives w.tree (.error e)) ∧
    (∀ e, (((Command.migrateKey old new).run place).on w).1 = .error e →
      w.tree.Widens (((Command.migrateKey old new).run place).on w).2.tree ∧
      (¬ IsUnframed b → (((Command.migrateKey old new).run place).on w).2.tree = w.tree)) := by
  refine ⟨⟨_, KeyFile.gives_loadFrom h, fun kf => KeyFile.loaded_eq_ok, fun hforeign =>
    ⟨⟨_, KeyFile.loaded_of_foreign hforeign⟩, KeyFile.decode_of_foreign hforeign⟩⟩, ?_⟩
  by_cases hold : IsUnframed b
  case neg =>
    obtain ⟨e, hfails⟩ := gives_convertKey_refused new h hold
    obtain ⟨hresult, htree⟩ := hfails w rfl
    show (_ → (((convertKey old new).on w).1 = _ ↔ _)) ∧
      (∀ ending, ((convertKey old new).on w).1 = _ → _) ∧ ∀ e, ((convertKey old new).on w).1 = _ → _
    rw [hresult]
    refine ⟨fun _ => ⟨fun hok => ?_, fun hkey => absurd hkey hold⟩, fun ending hok => ?_, fun e _ => ?_⟩
    · cases hok
    · cases hok
    · exact ⟨htree ▸ Tree.Widens.refl w.tree, fun _ => htree⟩
  case pos =>
    obtain ⟨hlength, hforeign⟩ := hold
    obtain ⟨material, rfl⟩ : ∃ material : Octets 96, b = material.toList := ⟨⟨b, hlength⟩, rfl⟩
    show (_ → (((convertKey old new).on w).1 = _ ↔ _)) ∧
      (∀ ending, ((convertKey old new).on w).1 = _ → _) ∧ ∀ e, ((convertKey old new).on w).1 = _ → _
    rcases on_convertKey_unframed new h hforeign with
      ⟨-, t', hput, hresult, htree⟩ | ⟨hnot, e, hresult, hwidens⟩
    · rw [hresult]
      refine ⟨fun _ => ⟨fun _ => ⟨hlength, hforeign⟩, fun _ => rfl⟩, fun ending _ => ⟨?_, ?_⟩,
        fun e herror => ?_⟩
      · exact ⟨material, rfl, htree ▸ converted_of_replaceFile hput⟩
      · exact fun place files f hf hread => gives_installKeys_foreign hf hread hforeign
      · cases herror
    · rw [hresult]
      refine ⟨fun hwritable => absurd hwritable hnot, fun ending hok => ?_, fun e _ => ?_⟩
      · cases hok
      · exact ⟨hwidens, fun hnot => absurd ⟨hlength, hforeign⟩ hnot⟩

/-- A key without framing: one byte over and over as its first key, another one as its second. -/
def oldKey : Octets 96 := (Octets.replicate 32 1).append (.replicate 64 2)

/-- A tree with a key without framing, a directory, and a link to that directory. -/
def oldTree : Tree where
  nodes := [(["old"], .file oldKey.toList Tree.plainMode), (["dir"], .directory), (["to"], .link ⟨"dir"⟩)]

def anywhere : Workplace where
  env _ := none
  config := {}

theorem namesEntry_old : oldTree.NamesEntry ⟨"old"⟩ [] "old" :=
  ⟨by decide, by decide, by decide, by decide, by decide, by decide, by decide, by decide,
    [], Tree.maxLinks, by decide, .done _ _⟩

theorem contentsAt_old : oldTree.contentsAt ⟨"old"⟩ = .ok oldKey.toList :=
  namesEntry_old.contentsAt rfl

theorem isUnframed_oldKey : IsUnframed oldKey.toList := ⟨oldKey.length_toList, by decide⟩

/-- A key without framing that is converted in its place. -/
theorem migrateKey_exact_inPlace :
    oldTree.contentsAt ⟨"old"⟩ = .ok oldKey.toList ∧
      (((Command.migrateKey ⟨"old"⟩ ⟨"old"⟩).run anywhere).on { tree := oldTree }).1 = .ok .done ∧
      (KeyFile.loadFrom ⟨"old"⟩).Gives
        (((Command.migrateKey ⟨"old"⟩ ⟨"old"⟩).run anywhere).on { tree := oldTree }).2.tree
        (.ok (.single none ⟨0, .replicate 32 1, .replicate 64 2⟩)) := by
  obtain ⟨-, hiff, hdone, -⟩ :=
    migrateKey_exact (w := { tree := oldTree }) anywhere ⟨"old"⟩ contentsAt_old
  have hholder : Tree.holderOf ⟨"old"⟩ = ⟨"."⟩ := by decide
  have hmade : oldTree.makeDirectories ⟨"."⟩ = (.ok (), oldTree) := by
    rw [Tree.makeDirectories, if_neg (by decide), Tree.makeDirectoriesOn, dif_pos (by decide)]
  have hwritable : oldTree.Writable ⟨"old"⟩ := by
    unfold Tree.Writable
    rw [hholder, hmade]
    exact ⟨rfl, [], _, Tree.replaceFile_eq_ok.mpr
      ⟨hholder ▸ oldTree.presence_here, [], "old", namesEntry_old, by decide, rfl⟩⟩
  have hresult := (hiff hwritable).mpr isUnframed_oldKey
  obtain ⟨⟨material, hmaterial, hconverted⟩, -⟩ := hdone _ hresult
  rw [← Octets.ext hmaterial] at hconverted
  exact ⟨contentsAt_old, hresult, hconverted.loads (.inr ⟨_, contentsAt_old⟩)⟩

/-- A destination that lies beside a link to a directory, and has its name. -/
def overLink : Path := ⟨"to/../to"⟩

/-- The way through the link, which comes back to where it began. -/
theorem reaches_through : oldTree.Reaches ⟨"to/.."⟩ [] := by
  have hto : Tree.Goes oldTree Tree.maxLinks [] ["to", ".."] 39 [] :=
    .follow (by decide) (by decide) (by decide) (by decide) rfl (by decide)
      (.into (by decide) (by decide) (by decide) (by decide) rfl (.up (by decide) (.done _ _)))
  exact ⟨by decide, by decide, by decide, 39, hto⟩

theorem accepts_overLink : oldTree.Accepts overLink ["to"] :=
  reaches_through.accepts (by decide) (by decide)
    ⟨⟨by decide, by decide, by decide⟩, by decide, by decide⟩ (by decide) (by decide) (by decide)

/-- The key file takes the place of the link that the way to it led through, so it is not found at the
destination. -/
theorem loadFrom_migrateKey_overLink :
    oldTree.contentsAt ⟨"old"⟩ = .ok oldKey.toList ∧ IsUnframed oldKey.toList ∧
      (((Command.migrateKey ⟨"old"⟩ overLink).run anywhere).on { tree := oldTree }).1 = .ok .done ∧
      (KeyFile.loadFrom overLink).Gives
        (((Command.migrateKey ⟨"old"⟩ overLink).run anywhere).on { tree := oldTree }).2.tree
        (.error (.io .notADirectory)) := by
  -- in the place of the link there is a file, which nothing lies below
  have hlost : ∀ content, (oldTree.put ([] ++ ["to"]) (.file content Tree.privateMode)).contentsAt
      overLink = .error .notADirectory := by
    intro content
    have hparts : overLink.parts = ["to", "..", "to"] := by decide
    rw [Tree.contentsAt, Tree.lookup_eq_walk (by decide) (by decide) (by decide),
      if_neg (by decide), hparts, Tree.walk_name (by decide) (by decide) (by decide),
      if_neg (by decide), if_neg (by decide), if_neg (by decide), Tree.find?_put, if_pos rfl]
    rfl
  obtain ⟨hresult, htree⟩ := on_convertKey_of_accepts (w := { tree := oldTree }) contentsAt_old
    isUnframed_oldKey.2 accepts_overLink
  refine ⟨contentsAt_old, isUnframed_oldKey, hresult, ?_⟩
  show Attempt.Gives _ ((convertKey ⟨"old"⟩ overLink).on { tree := oldTree }).2.tree _
  rw [htree]
  exact KeyFile.gives_loadFrom_error (hlost (framed oldKey).encode)

end RepoSeal.Command
