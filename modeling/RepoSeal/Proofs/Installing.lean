import RepoSeal.Proofs.Receiving

/-!
# RepoSeal — installing keys from files

Keys from files are all loaded before the first of them is installed, so one file that cannot be loaded
leaves the tree as it was (`gives_loadKeys_error`), and a file that is loaded may lie where a key is
installed. Then each key is put under its name in one directory: all of them where the way to it stays
(`on_installAll`), and else those up to the first that is in the way of the others
(`exists_widens_installAll`).
-/

namespace RepoSeal

/-! ## Loading before installing -/

namespace Workplace

variable {place : Workplace} {t : Tree} {w : World} {files : List Path} {kfs : List KeyFile}

theorem gives_loadKeys
    (h : List.Forall₂ (fun f kf => (KeyFile.loadFrom (f.expandHome place.home)).Gives t (.ok kf))
      files kfs) : (place.loadKeys files).Gives t (.ok kfs) := by
  induction h with
  | nil => exact Attempt.gives_pure []
  | @cons f kf rest later hload _ ih =>
    rw [loadKeys]
    exact (hload.inLibrary.during (.loadingKeyFile f)).bind (ih.bind (Attempt.gives_pure _))

/-- The first file that cannot be loaded decides, wherever it stands. -/
theorem gives_loadKeys_error
    (h : ∃ f ∈ files, ¬ ∃ kf, (KeyFile.loadFrom (f.expandHome place.home)).Gives t (.ok kf)) :
    ∃ before f later e, files = before ++ f :: later ∧
      (∀ g ∈ before, ∃ kf, (KeyFile.loadFrom (g.expandHome place.home)).Gives t (.ok kf)) ∧
      (KeyFile.loadFrom (f.expandHome place.home)).Gives t (.error e) ∧
      (place.loadKeys files).Gives t (.error (.during (.loadingKeyFile f) (.library e))) := by
  induction files with
  | nil =>
    obtain ⟨f, hf, -⟩ := h
    cases hf
  | cons f rest ih =>
    obtain ⟨r, hr⟩ := KeyFile.exists_gives_loadFrom t (f.expandHome place.home)
    have hload := hr.inLibrary.during (.loadingKeyFile f)
    rw [loadKeys]
    cases r with
    | error e => exact ⟨[], f, rest, e, rfl, by simp, hr, hload.bind_error⟩
    | ok kf =>
      -- this file is loaded, so it is one of the others that is not
      obtain ⟨g, hg, hnot⟩ := h
      have hrest : g ∈ rest := by
        rcases List.mem_cons.mp hg with rfl | hrest
        · exact absurd ⟨kf, hr⟩ hnot
        · exact hrest
      obtain ⟨before, f', later, e, rfl, hbefore, he, hfails⟩ := ih ⟨g, hrest, hnot⟩
      exact ⟨f :: before, f', later, e, rfl, List.forall_mem_cons.mpr ⟨⟨kf, hr⟩, hbefore⟩, he,
        hload.bind hfails.bind_error⟩

end Workplace

/-! ## Installing -/

theorem Config.parts_keyFilesDir (c : Config) (home : Option String) :
    (c.keyFilesDir home).parts ≠ [] := by
  rw [keyFilesDir, Path.parts_join _ ⟨by decide, by decide, by decide⟩]
  simp

theorem Config.ending_keyFilesDir (c : Config) (home : Option String) :
    (c.keyFilesDir home).ending = [] :=
  Path.ending_join _ ⟨by decide, by decide, by decide⟩

/-- A key file is put where one is accepted once the directories on the way have been made. -/
theorem KeyFile.on_storeAt_of_made {w : World} {p : Path} {t' : Tree} {loc : Location} (kf : KeyFile)
    (hmade : w.tree.makeDirectories (Tree.holderOf p) = (.ok (), t')) (h : t'.Accepts p loc) :
    ∃ log, (kf.storeAt p).on w =
      (.ok (), { w with tree := t'.put loc (.file kf.encode Tree.privateMode), log }) := by
  have hput : (Store.putBlob p kf.encode).on w =
      (.ok (), { w with tree := t'.put loc (.file kf.encode Tree.privateMode) }) := by
    rw [Store.on_putBlob, hmade]
    dsimp only
    rw [h.put kf.encode]
  rw [storeAt_eq, Attempt.on_bind, hput]
  exact ⟨_, rfl⟩

namespace Workplace

variable {place : Workplace} {w : World} {t' : Tree} {loc : Location} {names : List String}
  {kfs : List KeyFile}

theorem on_install_eq (place : Workplace) (kf : KeyFile) (w : World) :
    (place.install kf).on w =
      (Attempt.inLibrary (kf.storeAt (place.config.keyFilesDir place.home / kf.shownName))).on w := by
  rw [install, Attempt.on_inLibrary, Attempt.on_inLibrary, Attempt.on_bind, Store.installedPath_eq,
    Attempt.on_ofExcept]
  rfl

theorem on_install {kf : KeyFile} {p : Path} (hp : place.config.keyFilesDir place.home / kf.shownName = p)
    (hmade : w.tree.makeDirectories (Tree.holderOf p) = (.ok (), t')) (h : t'.Accepts p loc) :
    ∃ log, (place.install kf).on w =
      (.ok (), { w with tree := t'.put loc (.file kf.encode Tree.privateMode), log }) := by
  subst hp
  obtain ⟨log, hstore⟩ := kf.on_storeAt_of_made hmade h
  refine ⟨log, ?_⟩
  rw [on_install_eq, Attempt.on_inLibrary, hstore]
  rfl

/-- Below a path where no directory can be made no key is installed. -/
theorem on_install_of_blocked (kf : KeyFile)
    (h : w.tree.Blocked (place.config.keyFilesDir place.home)) :
    ∃ e t', w.tree.Widens t' ∧ (place.install kf).on w = (.error e, { w with tree := t' }) := by
  have hholder : Tree.holderOf (place.config.keyFilesDir place.home / kf.shownName) =
      place.config.keyFilesDir place.home :=
    Tree.holderOf_join (place.config.ending_keyFilesDir place.home)
      (place.config.parts_keyFilesDir place.home) (Store.isStep_shownKeyName kf.name).toIsPart
  rcases kf.on_storeAt_cases (place.config.keyFilesDir place.home / kf.shownName) w with
    ⟨-, t', log, hput, -⟩ | ⟨-, e, t', hwidens, hon⟩
  · obtain ⟨hthere, -⟩ := Tree.replaceFile_eq_ok.mp hput
    rw [hholder] at hthere
    exact absurd hthere (h _ (w.tree.widens_makeDirectories _))
  · refine ⟨.library e, t', hwidens, ?_⟩
    rw [on_install_eq, Attempt.on_inLibrary, hon]
    rfl

/-- The first of some keys is put in the directory, which is made for it. -/
theorem on_installAll_cons {kf : KeyFile} (later : List KeyFile) {p : Path}
    (hp : place.config.keyFilesDir place.home / kf.shownName = p)
    (hmade : w.tree.makeDirectories (Tree.holderOf p) = (.ok (), t')) (h : t'.Accepts p loc) :
    ∃ w' : World, w'.tree = t'.put loc (.file kf.encode Tree.privateMode) ∧
      (place.installAll (kf :: later)).on w = (place.installAll later).on w' := by
  obtain ⟨log, hinstall⟩ := on_install hp hmade h
  rw [installAll, Attempt.on_bind, hinstall]
  dsimp only
  rw [Attempt.on_bind, Attempt.on_ask]
  refine ⟨_, ?_, rfl⟩
  rfl

/-- Keys are installed one after the other, in a directory that is made before the first of them. Each
but the last leaves the way to it for those that follow. -/
theorem on_installAll (hne : kfs ≠ []) (hkfs : ∀ kf ∈ kfs, kf.shownName ∈ names)
    (hmade : w.tree.makeDirectories (place.config.keyFilesDir place.home) = (.ok (), t'))
    (h : t'.Receives (place.config.keyFilesDir place.home) loc names)
    (hown : ∀ kf ∈ kfs.dropLast,
      (t'.remove (loc ++ [kf.shownName])).Reaches (place.config.keyFilesDir place.home) loc) :
    ((place.installAll kfs).on w).1 = .ok () ∧
      ((place.installAll kfs).on w).2.tree = t'.withKeys loc kfs := by
  induction kfs generalizing w t' with
  | nil => exact absurd rfl hne
  | cons kf later ih =>
    obtain ⟨hkf, hlater⟩ := List.forall_mem_cons.mp hkfs
    obtain ⟨w', htree, hon⟩ :=
      on_installAll_cons later rfl (h.holderOf_eq hkf ▸ hmade) (h.accepts hkf)
    rw [hon, Tree.withKeys_cons]
    by_cases hnil : later = []
    · rw [hnil]
      exact ⟨rfl, htree⟩
    · rw [List.dropLast_cons_of_ne_nil hnil] at hown
      obtain ⟨hleft, hothers⟩ := List.forall_mem_cons.mp hown
      -- the directory is there for the keys that follow
      have hput := h.put hleft kf.encode Tree.privateMode
      rw [← htree] at hput ⊢
      exact ih hnil hlater (hput.made hkf) hput fun other hother =>
        htree ▸ hleft.remove_put (hothers other hother)

/-- Whether all keys are installed or not, those that are lie in the directory, and beside them at most
directories are added. -/
theorem exists_widens_installAll (hne : kfs ≠ []) (hkfs : ∀ kf ∈ kfs, kf.shownName ∈ names)
    (hmade : w.tree.makeDirectories (place.config.keyFilesDir place.home) = (.ok (), t'))
    (h : t'.Receives (place.config.keyFilesDir place.home) loc names) :
    ∃ installed, installed <+: kfs ∧
      (t'.withKeys loc installed).Widens ((place.installAll kfs).on w).2.tree := by
  induction kfs generalizing w t' with
  | nil => exact absurd rfl hne
  | cons kf later ih =>
    obtain ⟨hkf, hlater⟩ := List.forall_mem_cons.mp hkfs
    obtain ⟨w', htree, hon⟩ :=
      on_installAll_cons later rfl (h.holderOf_eq hkf ▸ hmade) (h.accepts hkf)
    rw [hon]
    cases later with
    | nil => exact ⟨[kf], List.prefix_rfl, htree ▸ Tree.Widens.refl _⟩
    | cons next later =>
      by_cases hleft : (t'.remove (loc ++ [kf.shownName])).Reaches
          (place.config.keyFilesDir place.home) loc
      · have hput := h.put hleft kf.encode Tree.privateMode
        rw [← htree] at hput
        obtain ⟨installed, hfront, hwidens⟩ :=
          ih (List.cons_ne_nil _ _) hlater (hput.made hkf) hput
        rw [htree] at hwidens
        exact ⟨kf :: installed, List.cons_prefix_cons.mpr ⟨rfl, hfront⟩, hwidens⟩
      · -- the key is in the way of those that follow
        have hblocked := h.blocked_put hleft kf.encode Tree.privateMode
        rw [← htree] at hblocked
        obtain ⟨e, t'', hwidens, hfails⟩ := on_install_of_blocked next hblocked
        rw [htree] at hwidens
        refine ⟨[kf], List.cons_prefix_cons.mpr ⟨rfl, List.nil_prefix⟩, ?_⟩
        rw [installAll, Attempt.on_bind, hfails]
        exact hwidens

end Workplace

/-! ## Unlocking with key files -/

namespace Command

variable {place : Workplace} {w : World} {files : List Path} {kfs : List KeyFile}

theorem gives_installKeys_error {e : Failure} {t : Tree} (hne : files ≠ [])
    (h : (place.loadKeys files).Gives t (.error e)) : (installKeys place files).Gives t (.error e) := by
  rw [installKeys, List.isEmpty_eq_false_iff.mpr hne, if_neg Bool.false_ne_true]
  exact h.bind_error

/-- Once all files are loaded, the keys are installed in the tree that they were loaded from. -/
theorem on_installKeys (hne : files ≠ []) (h : (place.loadKeys files).Gives w.tree (.ok kfs)) :
    ∃ w' : World, w'.tree = w.tree ∧
      (installKeys place files).on w =
        (((place.installAll kfs).on w').1.map fun _ => .done, ((place.installAll kfs).on w').2) := by
  obtain ⟨hresult, htree⟩ := h w rfl
  rw [installKeys, List.isEmpty_eq_false_iff.mpr hne, if_neg Bool.false_ne_true, Attempt.on_bind]
  generalize (place.loadKeys files).on w = o at hresult htree
  obtain ⟨result, w'⟩ := o
  cases hresult
  exact ⟨w', htree, Attempt.on_bind_pure _ _ _⟩

/-- **Unlocking with key files.** If one of the files cannot be loaded as a key file, the command fails
with the first such file, and the tree stays as it was. If all of them are loaded, every name is one that
a key is installed under, and where all of these can be written, what does not lie at one of them stays as
it was. A place is a key's own if the way to the directory of keys does not lead through a link there, as
at all places that could be read before. If the places of all keys but the last are their own, the command
succeeds; if all are, then under each name the last key with this name is loaded. -/
theorem unlock_outcome (place : Workplace) (w : World) {files : List Path} (hfiles : files ≠ []) :
    let dir := place.config.keyFilesDir place.home
    let made := (w.tree.makeDirectories dir).2
    let unlock := (Command.unlock files).run place
    let Loads (f : Path) (kf : KeyFile) :=
      (KeyFile.loadFrom (f.expandHome place.home)).Gives w.tree (.ok kf)
    let Own (kf : KeyFile) := made.OwnPlace (dir / kf.shownName) ∨
      ∃ content, w.tree.contentsAt (dir / kf.shownName) = .ok content
    ((∃ f ∈ files, ¬ ∃ kf, Loads f kf) →
      ∃ before f later e, files = before ++ f :: later ∧ (∀ g ∈ before, ∃ kf, Loads g kf) ∧
        (KeyFile.loadFrom (f.expandHome place.home)).Gives w.tree (.error e) ∧
        unlock.Gives w.tree (.error (.during (.loadingKeyFile f) (.library e)))) ∧
    ∀ kfs, List.Forall₂ Loads files kfs →
      (∀ kf ∈ kfs, place.installedPath (kf.name.map KeyName.text) = .ok (dir / kf.shownName)) ∧
      ((∀ kf ∈ kfs, w.tree.Writable (dir / kf.shownName)) →
        (∃ loc, (∀ kf ∈ kfs, made.NamesEntry (dir / kf.shownName) loc kf.shownName) ∧
          ∀ at_, (∀ kf ∈ kfs, at_ ≠ loc ++ [kf.shownName]) →
            (unlock.on w).2.tree.find? at_ = w.tree.find? at_ ∨
              w.tree.find? at_ = none ∧ (unlock.on w).2.tree.find? at_ = some .directory) ∧
        ((∀ kf ∈ kfs.dropLast, Own kf) → (unlock.on w).1 = .ok .done) ∧
        ((∀ kf ∈ kfs, Own kf) → ∀ before kf later, kfs = before ++ kf :: later →
          (∀ other ∈ later, other.name ≠ kf.name) →
          (KeyFile.loadFrom (dir / kf.shownName)).Gives (unlock.on w).2.tree (.ok kf))) := by
  intro dir made unlock Loads Own
  refine ⟨fun hnot => ?_, fun kfs hloads => ⟨fun kf _ => Store.installedPath_eq place kf.name,
    fun hwritable => ?_⟩⟩
  · obtain ⟨before, f, later, e, hsplit, hbefore, he, hfails⟩ := Workplace.gives_loadKeys_error hnot
    exact ⟨before, f, later, e, hsplit, hbefore, he, gives_installKeys_error hfiles hfails⟩
  have hkfs : kfs ≠ [] := by
    rintro rfl
    exact hfiles (List.forall₂_nil_right_iff.mp hloads)
  have hmem : ∀ kf ∈ kfs, kf.shownName ∈ kfs.map KeyFile.shownName := fun kf =>
    List.mem_map_of_mem
  have hnames : kfs.map KeyFile.shownName ≠ [] := by simpa using hkfs
  obtain ⟨t', loc, hmade, hreceives⟩ := Tree.exists_receives
    (place.config.parts_keyFilesDir place.home) (place.config.ending_keyFilesDir place.home) hnames
    (List.forall_mem_map.mpr fun kf _ =>
      ⟨Store.isStep_shownKeyName kf.name, Store.utf8ByteSize_shownKeyName kf.name⟩)
    (List.forall_mem_map.mpr hwritable)
  have hwidens : w.tree.Widens t' := by
    have h := w.tree.widens_makeDirectories dir
    rwa [hmade] at h
  have hmade' : made = t' := congrArg Prod.snd hmade
  have hown : ∀ kf ∈ kfs, Own kf → (t'.remove (loc ++ [kf.shownName])).Reaches dir loc :=
    fun kf hkf hplace => hreceives.reaches_of_own (hmem kf hkf) hwidens (hmade' ▸ hplace)
  obtain ⟨w', htree, hon⟩ := on_installKeys hfiles (Workplace.gives_loadKeys hloads)
  rw [← htree] at hmade
  have hrun : unlock.on w =
      (((place.installAll kfs).on w').1.map fun _ => .done, ((place.installAll kfs).on w').2) := hon
  rw [hrun, hmade']
  refine ⟨⟨loc, fun kf hkf => hreceives.namesEntry (hmem kf hkf), fun at_ hother => ?_⟩,
    fun hall => ?_, fun hall before kf later hsplit hlast => ?_⟩
  · obtain ⟨installed, hfront, hafter⟩ :=
      Workplace.exists_widens_installAll hkfs hmem hmade hreceives
    exact Tree.find?_around_withKeys hwidens hafter fun kf hkf => hother kf (hfront.subset hkf)
  · obtain ⟨hresult, -⟩ := Workplace.on_installAll hkfs hmem hmade hreceives fun kf hkf =>
      hown kf (List.mem_of_mem_dropLast hkf) (hall kf hkf)
    rw [hresult]
    rfl
  · have hleft := fun kf hkf => hown kf hkf (hall kf hkf)
    obtain ⟨-, hplaced⟩ := Workplace.on_installAll hkfs hmem hmade hreceives fun kf hkf =>
      hleft kf (List.mem_of_mem_dropLast hkf)
    have hkf : kf ∈ kfs := by
      rw [hsplit]
      simp
    rw [hplaced]
    exact ((hreceives.withKeys hleft).namesEntry (hmem kf hkf)).gives_loadFrom
      (hsplit ▸ Tree.find?_withKeys hlast)

/-- A key file whose only key has one byte over and over. -/
def keyOf (byte : UInt8) : KeyFile := framed (.replicate 96 byte)

/-- Where the default key is installed. -/
def defaultKey : Path := ⟨".git/git-crypt/keys/default"⟩

theorem keyFilesDir_anywhere :
    anywhere.config.keyFilesDir anywhere.home = ⟨".git/git-crypt/keys"⟩ := by
  show Config.keyFilesDir none {} = _
  decide

theorem join_defaultKey : Path.mk ".git/git-crypt/keys" / "default" = defaultKey := by decide

theorem installed_keyOf (byte : UInt8) :
    anywhere.config.keyFilesDir anywhere.home / (keyOf byte).shownName = defaultKey := by
  rw [keyFilesDir_anywhere]
  exact join_defaultKey

/-- A tree with a default key that is installed, and another one beside it. -/
def unlockedTree : Tree where
  nodes := [([".git"], .directory), ([".git", "git-crypt"], .directory),
    ([".git", "git-crypt", "keys"], .directory),
    ([".git", "git-crypt", "keys", "default"], .file (keyOf 1).encode Tree.privateMode),
    (["spare"], .file (keyOf 2).encode Tree.plainMode)]

theorem reaches_unlockedTree :
    unlockedTree.Reaches ⟨".git/git-crypt/keys"⟩ [".git", "git-crypt", "keys"] := by
  have hgoes : Tree.Goes unlockedTree Tree.maxLinks [] [".git", "git-crypt", "keys"] Tree.maxLinks
      ([] ++ [".git", "git-crypt", "keys"]) := Tree.goes_along (by decide) (by decide)
  exact ⟨by decide, by decide, by decide, _, hgoes⟩

theorem isStep_default : Path.IsStep "default" := Store.isStep_shownKeyName none

theorem namesEntry_defaultKey :
    unlockedTree.NamesEntry defaultKey [".git", "git-crypt", "keys"] "default" :=
  join_defaultKey ▸ reaches_unlockedTree.namesEntry isStep_default (by decide) (by decide)

theorem namesEntry_spare : unlockedTree.NamesEntry ⟨"spare"⟩ [] "spare" :=
  ⟨by decide, by decide, by decide, by decide, by decide, by decide, by decide, by decide,
    [], Tree.maxLinks, by decide, .done _ _⟩

theorem accepts_defaultKey :
    unlockedTree.Accepts defaultKey [".git", "git-crypt", "keys", "default"] :=
  reaches_unlockedTree.accepts (by decide) (by decide) isStep_default (by decide) (by decide) (by decide)

/-- The installed key is listed behind another one with its name: it is read before the other one takes
its place, and stays. -/
theorem unlock_outcome_keptLast :
    (((Command.unlock [⟨"spare"⟩, defaultKey]).run anywhere).on { tree := unlockedTree }).1 =
        .ok .done ∧
      (KeyFile.loadFrom defaultKey).Gives
        (((Command.unlock [⟨"spare"⟩, defaultKey]).run anywhere).on { tree := unlockedTree }).2.tree
        (.ok (keyOf 1)) := by
  obtain ⟨-, hall⟩ := unlock_outcome anywhere { tree := unlockedTree }
    (List.cons_ne_nil ⟨"spare"⟩ [defaultKey])
  obtain ⟨-, hwritten⟩ := hall [keyOf 2, keyOf 1]
    (.cons (namesEntry_spare.gives_loadFrom rfl)
      (.cons (namesEntry_defaultKey.gives_loadFrom rfl) .nil))
  have hdest : ∀ kf ∈ [keyOf 2, keyOf 1],
      anywhere.config.keyFilesDir anywhere.home / kf.shownName = defaultKey := by
    simp [installed_keyOf]
  obtain ⟨-, hdone, hlast⟩ := hwritten fun kf hkf => hdest kf hkf ▸ accepts_defaultKey.writable
  have hread : ∀ kf ∈ [keyOf 2, keyOf 1], ∃ content, unlockedTree.contentsAt
      (anywhere.config.keyFilesDir anywhere.home / kf.shownName) = .ok content := fun kf hkf =>
    ⟨_, hdest kf hkf ▸ namesEntry_defaultKey.contentsAt rfl⟩
  have hkept := hlast (fun kf hkf => .inr (hread kf hkf)) [keyOf 2] (keyOf 1) [] rfl (by simp)
  rw [installed_keyOf] at hkept
  exact ⟨hdone fun kf hkf => .inr (hread kf (List.mem_of_mem_dropLast hkf)), hkept⟩

/-- A directory of keys that is reached through a link with the name of the default key. -/
def detourTree : Tree where
  nodes := [([".git"], .directory), ([".git", "git-crypt"], .directory),
    ([".git", "git-crypt", "real"], .directory), ([".git", "git-crypt", "real", "sub"], .directory),
    ([".git", "git-crypt", "real", "default"], .link ⟨"sub"⟩),
    ([".git", "git-crypt", "keys"], .link ⟨"real/default/.."⟩),
    (["key"], .file (keyOf 1).encode Tree.plainMode)]

theorem reaches_detourTree :
    detourTree.Reaches ⟨".git/git-crypt/keys"⟩ [".git", "git-crypt", "real"] := by
  have hgoes : Tree.Goes detourTree Tree.maxLinks [] [".git", "git-crypt", "keys"] 38
      [".git", "git-crypt", "real"] :=
    .into (by decide) (by decide) (by decide) (by decide) rfl <|
    .into (by decide) (by decide) (by decide) (by decide) rfl <|
    .follow (by decide) (by decide) (by decide) (by decide) rfl (by decide) <|
    .into (by decide) (by decide) (by decide) (by decide) rfl <|
    .follow (by decide) (by decide) (by decide) (by decide) rfl (by decide) <|
    .into (by decide) (by decide) (by decide) (by decide) rfl <|
    .up (by decide) (.done _ _)
  exact ⟨by decide, by decide, by decide, 38, hgoes⟩

theorem namesEntry_key : detourTree.NamesEntry ⟨"key"⟩ [] "key" :=
  ⟨by decide, by decide, by decide, by decide, by decide, by decide, by decide, by decide,
    [], Tree.maxLinks, by decide, .done _ _⟩

theorem receives_detourTree :
    detourTree.Receives ⟨".git/git-crypt/keys"⟩ [".git", "git-crypt", "real"] ["default"] where
  parts_ne := by decide
  reaches := reaches_detourTree
  step := by simpa using ⟨isStep_default, by decide⟩
  fits := by decide
  free := by decide

theorem accepts_detourTree : detourTree.Accepts defaultKey [".git", "git-crypt", "real", "default"] :=
  join_defaultKey ▸ receives_detourTree.accepts List.mem_cons_self

/-- The same tree with a key file in the place of that link. -/
def detourWith (kf : KeyFile) : Tree :=
  detourTree.put [".git", "git-crypt", "real", "default"] (.file kf.encode Tree.privateMode)

theorem find?_detourWith (kf : KeyFile) (at_ : Location) :
    (detourWith kf).find? at_ =
      if at_ = [".git", "git-crypt", "real", "default"] then some (.file kf.encode Tree.privateMode)
      else detourTree.find? at_ :=
  detourTree.find?_put [".git", "git-crypt", "real"] "default" _ at_

/-- In the place of the link there is a file, which nothing lies below. -/
theorem contentsAt_detourWith (kf : KeyFile) :
    (detourWith kf).contentsAt defaultKey = .error .notADirectory := by
  have hgoes : Tree.Goes (detourWith kf) Tree.maxLinks [] [".git", "git-crypt"] Tree.maxLinks
      ([] ++ [".git", "git-crypt"]) := by
    refine Tree.goes_along (by decide) fun n hn => ?_
    match n, hn with
    | 0, _ => exact find?_detourWith kf _
    | 1, _ => exact find?_detourWith kf _
  have hreal : Tree.Goes (detourWith kf) 39 [".git", "git-crypt"] ["real"] 39
      [".git", "git-crypt", "real"] :=
    .into (by decide) (by decide) (by decide) (by decide) (find?_detourWith kf _) (.done _ _)
  have hparts : defaultKey.parts = [".git", "git-crypt"] ++ ["keys", "default"] := by decide
  have hsteps : Tree.steps ⟨"real/default/.."⟩ ++ ["default"] =
      ["real"] ++ ["default", "..", "default"] := by decide
  have hwalk : (detourWith kf).walk .use Tree.maxLinks [] defaultKey.parts = .error .notADirectory := by
    rw [hparts, hgoes.walk_append (by decide), List.nil_append]
    refine (Tree.walk_link (by decide) (by decide) (by decide) (by decide) (by decide)
      (find?_detourWith kf _) (by decide)).trans ?_
    rw [hsteps, hreal.walk_append (by decide)]
    exact Tree.walk_below_file (by decide) (by decide) (by decide) (by decide) (by decide)
      (find?_detourWith kf _)
  rw [Tree.contentsAt, Tree.lookup_eq_walk (by decide) (by decide) (by decide), if_neg (by decide),
    hwalk]

theorem blocked_detourWith (kf : KeyFile) : (detourWith kf).Blocked ⟨".git/git-crypt/keys"⟩ := by
  refine receives_detourTree.blocked_put (fun hreaches => ?_) kf.encode Tree.privateMode
  -- a way that leaves out the link would lead to the key file
  have hread := ((hreaches.grows (detourTree.grows_remove_put _ _ _)).namesEntry isStep_default
    (by decide) (by decide)).contentsAt (find?_detourWith kf _)
  rw [join_defaultKey] at hread
  have hsame := hread.symm.trans (contentsAt_detourWith kf)
  cases hsame

/-- Installing the key of the file `key` first, and then those that follow. -/
theorem on_unlock_detour {files : List Path} {later : List KeyFile}
    (h : (anywhere.loadKeys (⟨"key"⟩ :: files)).Gives detourTree (.ok (keyOf 1 :: later))) :
    ∃ w : World, w.tree = detourWith (keyOf 1) ∧
      ((Command.unlock (⟨"key"⟩ :: files)).run anywhere).on { tree := detourTree } =
        (((anywhere.installAll later).on w).1.map fun _ => .done, ((anywhere.installAll later).on w).2) := by
  obtain ⟨w, htree, hon⟩ := on_installKeys (w := { tree := detourTree }) (List.cons_ne_nil _ _) h
  have haccepts : w.tree.Accepts defaultKey [".git", "git-crypt", "real", "default"] := by
    rw [htree]
    exact accepts_detourTree
  obtain ⟨w', htree', hon'⟩ :=
    Workplace.on_installAll_cons later (installed_keyOf 1) haccepts.made haccepts
  rw [htree] at htree'
  rw [hon'] at hon
  exact ⟨w', htree', hon⟩

/-- The key takes the place of the link that the way to the directory led through, so it is not found
where it was installed, and no key can be installed behind it. -/
theorem loadFrom_unlock_overLink :
    (KeyFile.loadFrom ⟨"key"⟩).Gives detourTree (.ok (keyOf 1)) ∧
      anywhere.installedPath none = .ok defaultKey ∧ detourTree.Writable defaultKey ∧
      (((Command.unlock [⟨"key"⟩]).run anywhere).on { tree := detourTree }).1 = .ok .done ∧
      (KeyFile.loadFrom defaultKey).Gives
        (((Command.unlock [⟨"key"⟩]).run anywhere).on { tree := detourTree }).2.tree
        (.error (.io .notADirectory)) ∧
      ∃ e, (((Command.unlock [⟨"key"⟩, ⟨"key"⟩]).run anywhere).on { tree := detourTree }).1 =
        .error e := by
  have hload := namesEntry_key.gives_loadFrom rfl
  refine ⟨hload, (Store.installedPath_eq anywhere none).trans (congrArg _ (installed_keyOf 1)),
    accepts_detourTree.writable, ?_⟩
  have honce : (anywhere.loadKeys [⟨"key"⟩]).Gives detourTree (.ok [keyOf 1]) :=
    Workplace.gives_loadKeys (.cons hload .nil)
  have htwice : (anywhere.loadKeys [⟨"key"⟩, ⟨"key"⟩]).Gives detourTree (.ok [keyOf 1, keyOf 1]) :=
    Workplace.gives_loadKeys (.cons hload (.cons hload .nil))
  obtain ⟨w, htree, hon⟩ := on_unlock_detour honce
  obtain ⟨w', htree', hon'⟩ := on_unlock_detour htwice
  have hblocked : w'.tree.Blocked (anywhere.config.keyFilesDir anywhere.home) := by
    rw [htree', keyFilesDir_anywhere]
    exact blocked_detourWith _
  obtain ⟨e, t', -, hfails⟩ := Workplace.on_install_of_blocked (keyOf 1) hblocked
  rw [hon, hon', Workplace.installAll, Workplace.installAll, Attempt.on_bind, hfails]
  refine ⟨rfl, ?_, e, rfl⟩
  show Attempt.Gives _ w.tree _
  rw [htree]
  exact KeyFile.gives_loadFrom_error (contentsAt_detourWith _)

end Command

end RepoSeal
