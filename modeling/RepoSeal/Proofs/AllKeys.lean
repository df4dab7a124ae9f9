import RepoSeal.Command.Sharing
import RepoSeal.Proofs.FirstIdentity

/-!
# RepoSeal — unwrapping all keys

Unwrapping all keys leaves out those that are not found. That loses no key: a key is not found only
where no identity of the reader has a copy of it (`unwrapKey_cases`), as long as the wrapper knows the
identities that it names (`Wrapper.Knows`). So a copy that is there is unwrapped, or its error ends
everything (`unwrapAll_outcome`). Each key that is unwrapped has the name of its directory, so no two
have one name, and they are installed at different paths (`exists_installedPaths`).
-/

namespace RepoSeal

/-- The private identities that a wrapper names, none of which it fails to find again. -/
structure Wrapper.Knows (w : Wrapper) (ids : List String) : Prop where
  secretFingerprints_eq : w.secretFingerprints = .ok ids
  finds : ∀ f ∈ ids, ∀ blob cause, w.unwrap blob f ≠ .error (.keyNotFound cause)

/-- The wrapper for age knows its identities, whatever the scheme and however often one is given. -/
theorem Age.knows_wrapperWith (scheme : Age.Scheme) (identities : List X25519.PrivateKey) :
    (Age.wrapperWith scheme identities).Knows (identities.map Age.fingerprintOf) where
  secretFingerprints_eq := rfl
  finds := by
    intro f hf blob cause
    obtain ⟨identity, hmem, rfl⟩ := List.mem_map.mp hf
    show Age.unwrapWith scheme identities blob (Age.fingerprintOf identity) ≠ _
    unfold Age.unwrapWith
    cases hfind : identities.find? (Age.fingerprintOf · = Age.fingerprintOf identity) with
    | none =>
      have hnot := List.find?_eq_none.mp hfind identity hmem
      simp at hnot
    | some found =>
      -- what decrypting fails with is an error of the service
      dsimp only
      cases scheme.decrypt found blob with
      | ok plaintext => exact fun h => nomatch h
      | error flaw => exact fun h => nomatch h

/-- Data that is no key file is refused as such. -/
theorem KeyFile.decode_ne_keyNotFound (b : Bytes) (cause : MissingKey) :
    decode b ≠ .error (.keyNotFound cause) := by
  intro h
  rcases load_cases Input.Setting.quiet_memory (Input.delivers_ofBytes b) with
    ⟨-, -, kf, -, -, hok⟩ | ⟨e, hrefused, he⟩
  · cases hok.symm.trans h
  · cases he.symm.trans h
    cases hrefused

namespace Store

variable {s : Store} {t : Tree} {name : Option KeyName} {v : UInt32} {f : String} {kf : KeyFile}
  {e : Error} {ids : List String}

/-! ## One key -/

theorem CopyFails.ne_keyNotFound (h : s.CopyFails t name v f e)
    (hfinds : ∀ blob cause, s.wrapper.unwrap blob f ≠ .error (.keyNotFound cause))
    (cause : MissingKey) : e ≠ .keyNotFound cause := by
  rintro rfl
  cases h with
  | locked _ h => exact hfinds _ _ h
  | broken _ h => exact KeyFile.decode_ne_keyNotFound _ _ h

/-- Whether no identity has a copy of a key. -/
def NoCopyThere (s : Store) (t : Tree) (ids : List String) (name : Option KeyName) (v : UInt32) :
    Prop :=
  ∀ f ∈ ids, ¬ s.CopyThere t name v f

/-- Where a copy is there, unwrapping gives a key file of that name, or an error other than that the
key is not found. -/
theorem unwrapWith_cases
    (hfinds : ∀ f ∈ ids, ∀ blob cause, s.wrapper.unwrap blob f ≠ .error (.keyNotFound cause))
    (name : Option KeyName) (v : UInt32) (failure : Error) :
    (s.NoCopyThere t ids name v ∧
      (s.unwrapWith (name.map KeyName.text) v failure ids).Gives t (.error failure)) ∨
    ¬ s.NoCopyThere t ids name v ∧
      ((∃ kf, (s.unwrapWith (name.map KeyName.text) v failure ids).Gives t (.ok kf) ∧
          kf.name = name) ∨
        ∃ e, (s.unwrapWith (name.map KeyName.text) v failure ids).Gives t (.error e) ∧
          ∀ cause, e ≠ .keyNotFound cause) := by
  induction ids generalizing failure with
  | nil => exact .inl ⟨fun f hf => absurd hf List.not_mem_nil, Attempt.gives_fail failure⟩
  | cons f ids ih =>
    obtain ⟨hf, hids⟩ := List.forall_mem_cons.mp hfinds
    by_cases hthere : s.CopyThere t name v f
    case neg =>
      -- nothing is there for this identity, so the others decide
      rcases ih hids failure with ⟨hnone, hrest⟩ | ⟨hsome, hrest⟩
      · exact .inl ⟨List.forall_mem_cons.mpr ⟨hthere, hnone⟩, unwrapWith_of_absent hthere hrest⟩
      · refine .inr ⟨fun hall => hsome (List.forall_mem_cons.mp hall).2, ?_⟩
        rcases hrest with ⟨kf, hkf, hname⟩ | ⟨e, he, hne⟩
        · exact .inl ⟨kf, unwrapWith_of_absent hthere hkf, hname⟩
        · exact .inr ⟨e, unwrapWith_of_absent hthere he, hne⟩
    refine .inr ⟨fun hall => (List.forall_mem_cons.mp hall).1 hthere, ?_⟩
    obtain ⟨kf, hopens⟩ | ⟨e, hfails⟩ := copy_cases hthere
    · exact .inl ⟨kf, unwrapWith_of_opens hopens failure ids, hopens.name_eq⟩
    · -- from here on there is an error to report
      rcases ih hids e with ⟨-, hrest⟩ | ⟨-, ⟨kf, hkf, hname⟩ | ⟨e', he', hne⟩⟩
      · exact .inr ⟨e, unwrapWith_of_fails hthere hfails hrest, hfails.ne_keyNotFound hf⟩
      · exact .inl ⟨kf, unwrapWith_of_fails hthere hfails hkf, hname⟩
      · exact .inr ⟨e', unwrapWith_of_fails hthere hfails he', hne⟩

theorem unwrapKey_cases (h : s.wrapper.Knows ids) (t : Tree) (name : Option KeyName) (v : UInt32) :
    (s.NoCopyThere t ids name v ∧ ∃ cause,
      (s.unwrapKey (name.map KeyName.text) v).Gives t (.error (.keyNotFound cause))) ∨
    ¬ s.NoCopyThere t ids name v ∧
      ((∃ kf, (s.unwrapKey (name.map KeyName.text) v).Gives t (.ok kf) ∧ kf.name = name) ∨
        ∃ e, (s.unwrapKey (name.map KeyName.text) v).Gives t (.error e) ∧
          ∀ cause, e ≠ .keyNotFound cause) := by
  rw [unwrapKey_eq h.secretFingerprints_eq]
  rcases unwrapWith_cases (t := t) h.finds name v (.keyNotFound (.noCopy (shownKeyName name) v)) with
    ⟨hnone, hgives⟩ | hrest
  · exact .inl ⟨hnone, _, hgives⟩
  · exact .inr hrest

/-- What lets unwrapping go on behind a key: there is no copy of it for the reader, or it is
unwrapped. -/
def Passes (s : Store) (t : Tree) (ids : List String) (v : UInt32) (name : Option KeyName) : Prop :=
  s.NoCopyThere t ids name v ∨ ∃ kf, (s.unwrapKey (name.map KeyName.text) v).Gives t (.ok kf)

/-! ## The keys of a store -/

/-- A key with a directory of its own in the store. -/
def KeyDirectory (s : Store) (t : Tree) (name : Option KeyName) : Prop :=
  ∃ loc, t.lookup .use s.root = .ok (.found loc .directory) ∧
    t.find? (loc ++ [shownKeyName name]) = some .directory

theorem exists_keyNames (s : Store) (ht : t.Sound) :
    ∃ keys, s.keyNames.Gives t (.ok keys) ∧ keys.Pairwise KeyLt ∧
      ∀ name, name ∈ keys ↔ s.KeyDirectory t name := by
  by_cases hroot : t.presence s.root = .directory
  · obtain ⟨loc, hlookup⟩ := Tree.presence_eq_directory.mp hroot
    obtain ⟨keys, hkeys, hsorted, hmem⟩ := keyNames_rows hlookup ht
    refine ⟨keys, hkeys, hsorted, fun name => (hmem name).trans ⟨fun h => ⟨loc, hlookup, h⟩, ?_⟩⟩
    rintro ⟨loc', hlookup', h⟩
    cases hlookup.symm.trans hlookup'
    exact h
  · refine ⟨[], keyNames_of_absent hroot, .nil, fun name => ?_⟩
    rw [List.mem_nil_iff, false_iff]
    rintro ⟨loc, hlookup, -⟩
    exact hroot (Tree.presence_eq_directory.mpr ⟨loc, hlookup⟩)

/-- Unwrapping some keys gives those that are unwrapped, or the first error that counts. -/
theorem unwrapEach_cases (h : s.wrapper.Knows ids) (t : Tree) (v : UInt32)
    (keys : List (Option KeyName)) :
    (∃ kfs, (s.unwrapEach v keys).Gives t (.ok kfs) ∧ (∀ name ∈ keys, s.Passes t ids v name) ∧
      (kfs.map KeyFile.name).Sublist keys ∧
      ∀ kf, kf ∈ kfs ↔
        ∃ name ∈ keys, (s.unwrapKey (name.map KeyName.text) v).Gives t (.ok kf)) ∨
    ∃ front name back e, keys = front ++ name :: back ∧ (∀ n ∈ front, s.Passes t ids v n) ∧
      ¬ s.Passes t ids v name ∧ (s.unwrapKey (name.map KeyName.text) v).Gives t (.error e) ∧
      (∀ cause, e ≠ .keyNotFound cause) ∧ (s.unwrapEach v keys).Gives t (.error e) := by
  induction keys with
  | nil => exact .inl ⟨[], Attempt.gives_pure [], by simp, .slnil, by simp⟩
  | cons name keys ih =>
    unfold Store.unwrapEach
    rcases unwrapKey_cases h t name v with
      ⟨hnone, cause, hkey⟩ | ⟨hsome, ⟨kf, hkey, hname⟩ | ⟨e, hkey, hne⟩⟩
    · -- not found, so the key is left out
      have hgo : ∀ r, (s.unwrapEach v keys).Gives t r →
          (s.unwrapEach v (name :: keys)).Gives t r := fun r hr =>
        hkey.outcome.bind ((Attempt.gives_log _).bind hr)
      rcases ih with ⟨kfs, hkfs, hpass, hsub, hmem⟩ | ⟨front, n, back, e, rfl, hfront, hn, hrest⟩
      · refine .inl ⟨kfs, hgo _ hkfs, List.forall_mem_cons.mpr ⟨.inl hnone, hpass⟩, hsub.cons _,
          fun kf => ?_⟩
        rw [hmem, List.exists_mem_cons_iff, or_iff_right]
        intro hok
        cases hok.unique hkey
      · exact .inr ⟨name :: front, n, back, e, rfl, List.forall_mem_cons.mpr ⟨.inl hnone, hfront⟩,
          hn, hrest.1, hrest.2.1, hgo _ hrest.2.2⟩
    · -- unwrapped, in front of the others
      have hpass : s.Passes t ids v name := .inr ⟨kf, hkey⟩
      rcases ih with ⟨kfs, hkfs, hall, hsub, hmem⟩ | ⟨front, n, back, e, rfl, hfront, hn, hrest⟩
      · refine .inl ⟨kf :: kfs, ?_, List.forall_mem_cons.mpr ⟨hpass, hall⟩, ?_, fun kf' => ?_⟩
        · exact hkey.outcome.bind (hkfs.bind (Attempt.gives_pure _))
        · rw [List.map_cons, hname]
          exact hsub.cons_cons name
        · rw [List.mem_cons, hmem, List.exists_mem_cons_iff]
          refine or_congr_left ⟨?_, fun hok => ?_⟩
          · rintro rfl
            exact hkey
          · exact Except.ok.inj (hok.unique hkey)
      · exact .inr ⟨name :: front, n, back, e, rfl, List.forall_mem_cons.mpr ⟨hpass, hfront⟩, hn,
          hrest.1, hrest.2.1, hkey.outcome.bind hrest.2.2.bind_error⟩
    · -- any other error ends it
      refine .inr ⟨[], name, keys, e, rfl, by simp, ?_, hkey, hne, hkey.outcome.bind ?_⟩
      · rintro (hnone | ⟨kf, hkf⟩)
        · exact hsome hnone
        · cases hkf.unique hkey
      · cases e with
        | keyNotFound cause => exact absurd rfl (hne cause)
        | _ => exact Attempt.gives_fail _

/-! ## All keys of a store -/

theorem KeyLt.ne {a b : Option KeyName} (h : KeyLt a b) : a ≠ b := by
  rintro rfl
  exact KeyLt.irrefl a h

theorem installedPath_eq (wp : Workplace) (name : Option KeyName) :
    wp.installedPath (name.map KeyName.text) =
      .ok (wp.config.keyFilesDir wp.home / shownKeyName name) := by
  cases name with
  | none => rfl
  | some n =>
    have hparse : KeyName.parse n.text = .ok n := by rw [KeyName.parse, n.ofText_text]
    show (KeyName.parse n.text >>= fun _ => _) = _
    rw [hparse]
    rfl

/-- Keys with different names are installed at different paths. -/
theorem exists_installedPaths (wp : Workplace) {kfs : List KeyFile}
    (h : (kfs.map KeyFile.name).Nodup) :
    ∃ paths, kfs.mapM (fun kf => wp.installedPath (kf.name.map KeyName.text)) = .ok paths ∧
      (paths.map Path.parts).Nodup := by
  refine ⟨kfs.map fun kf => wp.config.keyFilesDir wp.home / shownKeyName kf.name, ?_, ?_⟩
  · simp only [installedPath_eq]
    exact List.mapM_pure
  · rw [List.Nodup, List.pairwise_map, List.pairwise_map]
    refine (List.pairwise_map.mp h).imp fun {a b} hne heq => hne (shownKeyName_injective ?_)
    rw [Path.parts_join _ (isPart_shownKeyName a.name).1,
      Path.parts_join _ (isPart_shownKeyName b.name).1] at heq
    exact List.singleton_inj.mp (List.append_cancel_left heq)

/-- **What unwrapping all keys comes to**, if the wrapper knows its identities, as that for age does. It
gives keys only if each key of the store is unwrapped or has no copy for the reader. These are then all
that are unwrapped, in their order, each under a name of its own and so installed at a path of its own.
Otherwise the first key that has a copy and is not unwrapped decides, by an error other than that it
is not found. -/
theorem unwrapAll_outcome :
    (∀ scheme identities,
      (Age.wrapperWith scheme identities).Knows (identities.map Age.fingerprintOf)) ∧
    ∀ (s : Store) (t : Tree) (ids : List String) (v : UInt32), t.Sound → s.wrapper.Knows ids →
      ((∃ kfs, (s.unwrapAll v).Gives t (.ok kfs)) ↔
        ∀ name, s.KeyDirectory t name → s.Passes t ids v name) ∧
      (∀ kfs, (s.unwrapAll v).Gives t (.ok kfs) →
        (kfs.map KeyFile.name).Pairwise KeyLt ∧
        (∀ kf, kf ∈ kfs ↔ ∃ name, s.KeyDirectory t name ∧
          (s.unwrapKey (name.map KeyName.text) v).Gives t (.ok kf)) ∧
        ∀ wp : Workplace,
          ∃ paths, kfs.mapM (fun kf => wp.installedPath (kf.name.map KeyName.text)) = .ok paths ∧
            (paths.map Path.parts).Nodup) ∧
      ((¬ ∀ name, s.KeyDirectory t name → s.Passes t ids v name) →
        ∃ name e, s.KeyDirectory t name ∧ ¬ s.Passes t ids v name ∧
          (∀ other, s.KeyDirectory t other → KeyLt other name → s.Passes t ids v other) ∧
          (s.unwrapKey (name.map KeyName.text) v).Gives t (.error e) ∧
          (s.unwrapAll v).Gives t (.error e) ∧ ∀ cause, e ≠ .keyNotFound cause) := by
  refine ⟨Age.knows_wrapperWith, fun s t ids v ht h => ?_⟩
  obtain ⟨keys, hkeys, hsorted, hmem⟩ := exists_keyNames s ht
  have hall : ∀ r, (s.unwrapEach v keys).Gives t r → (s.unwrapAll v).Gives t r := fun r hr =>
    hkeys.bind hr
  rcases unwrapEach_cases h t v keys with
    ⟨kfs, hkfs, hpass, hsub, hgiven⟩ | ⟨front, name, back, e, rfl, hfront, hname, hkey, hne, hends⟩
  · have hpasses : ∀ name, s.KeyDirectory t name → s.Passes t ids v name := fun name hdir =>
      hpass name ((hmem name).mpr hdir)
    refine ⟨iff_of_true ⟨kfs, hall _ hkfs⟩ hpasses, fun kfs' hkfs' => ?_, fun hnot =>
      absurd hpasses hnot⟩
    cases hkfs'.unique (hall _ hkfs)
    have hpairwise : (kfs.map KeyFile.name).Pairwise KeyLt := hsorted.sublist hsub
    refine ⟨hpairwise, fun kf => ?_, fun wp => exists_installedPaths wp (hpairwise.imp KeyLt.ne)⟩
    simp only [hgiven, hmem]
  · have hdir : s.KeyDirectory t name :=
      (hmem name).mp (List.mem_append_right _ List.mem_cons_self)
    have hfails : ¬ ∀ name, s.KeyDirectory t name → s.Passes t ids v name := fun hpasses =>
      hname (hpasses name hdir)
    have hnone : ∀ kfs, ¬ (s.unwrapAll v).Gives t (.ok kfs) := fun kfs hkfs => by
      cases hkfs.unique (hall _ hends)
    refine ⟨iff_of_false (fun ⟨kfs, hkfs⟩ => hnone kfs hkfs) hfails, fun kfs hkfs =>
      absurd hkfs (hnone kfs), fun _ =>
      ⟨name, e, hdir, hname, fun other hother hlt => ?_, hkey, hall _ hends, hne⟩⟩
    -- what comes before the key in the order comes before it in the list
    rcases List.mem_append.mp ((hmem other).mpr hother) with hbefore | hbehind
    · exact hfront other hbefore
    · have hback := (List.pairwise_append.mp hsorted).2.1
      rcases List.mem_cons.mp hbehind with rfl | hbehind
      · exact absurd hlt (KeyLt.irrefl _)
      · exact absurd (hlt.trans ((List.pairwise_cons.mp hback).1 other hbehind)) (KeyLt.irrefl _)

/-! ## A store with one key -/

section

variable {entries : List (String × Node)}

theorem keyDirectory_shelf (hsite : (shelf entries).Site [] [] ".git-crypt") (ids : List String)
    (name : Option KeyName) :
    (openStore.readBy ids openWrapper.unwrap).KeyDirectory (shelf entries) name ↔ name = none := by
  have hbelow : openStore.root.Below [] [".git-crypt", "keys"] :=
    ⟨by decide, by decide, by decide, by decide⟩
  have hroot : (shelf entries).lookup .use openStore.root =
      .ok (.found [".git-crypt", "keys"] .directory) :=
    hsite.lookup_of_some hbelow rfl (by decide) rfl
  constructor
  · rintro ⟨loc, hlookup, hdir⟩
    cases hroot.symm.trans hlookup
    have hmem := hsite.sound.find?_eq_some.mp hdir
    have hshown : shownKeyName name = "default" := by simpa [shelf] using hmem
    exact shownKeyName_injective hshown
  · rintro rfl
    exact ⟨_, hroot, rfl⟩

theorem knows_readBy (ids : List String) :
    (openStore.readBy ids openWrapper.unwrap).wrapper.Knows ids where
  secretFingerprints_eq := rfl
  finds := by
    intro f _ blob cause
    show (if (utf8 f).isPrefixOf blob then Except.ok (blob.drop (utf8 f).length)
      else Except.error (Error.external "open" f)) ≠ .error (.keyNotFound cause)
    split <;> exact fun h => nomatch h

theorem unwrapKey_readBy (ids : List String) (name : Option KeyName) (v : UInt32) :
    (openStore.readBy ids openWrapper.unwrap).unwrapKey (name.map KeyName.text) v =
      (openStore.readBy ids openWrapper.unwrap).unwrapWith (name.map KeyName.text) v
        (.keyNotFound (.noCopy (shownKeyName name) v)) ids :=
  unwrapKey_eq rfl name v

theorem gives_unwrapKey_halfBroken :
    ((openStore.readBy ["bo"] openWrapper.unwrap).unwrapKey none 0).Gives halfBroken
      (.ok (.single none (plainEntry 7))) := by
  rw [show (none : Option String) = (none : Option KeyName).map KeyName.text from rfl,
    unwrapKey_readBy]
  exact unwrapWith_of_opens (copyOpens_halfBroken ["bo"]) _ []

theorem unwrapAll_outcome_halfBroken :
    ∃ kfs, ((openStore.readBy ["bo"] openWrapper.unwrap).unwrapAll 0).Gives halfBroken (.ok kfs) ∧
      .single none (plainEntry 7) ∈ kfs := by
  have hkeys := keyDirectory_shelf site_halfBroken ["bo"]
  obtain ⟨hok, hgiven, -⟩ := unwrapAll_outcome.2 (openStore.readBy ["bo"] openWrapper.unwrap)
    halfBroken ["bo"] 0 site_halfBroken.sound (knows_readBy ["bo"])
  obtain ⟨kfs, hkfs⟩ := hok.mpr fun name hdir => by
    rw [(hkeys name).mp hdir]
    exact .inr ⟨_, gives_unwrapKey_halfBroken⟩
  exact ⟨kfs, hkfs,
    ((hgiven kfs hkfs).2.1 _).mpr ⟨none, (hkeys none).mpr rfl, gives_unwrapKey_halfBroken⟩⟩

/-- A directory in the place of the copy for a recipient. -/
def occupied : Tree := shelf [("ann.open", .directory)]

theorem site_occupied : occupied.Site [] [] ".git-crypt" :=
  site_shelf (Tree.sound_of_nodes (by decide) (by decide)) (by decide)

/-- What lies in the place of a copy counts as one, also if it is no file. So there is no file for the
reader in the place of any key, and unwrapping all keys fails. -/
theorem unwrapAll_occupied :
    occupied.Sound ∧ (openStore.readBy ["ann"] openWrapper.unwrap).wrapper.Knows ["ann"] ∧
      (∀ name, (openStore.readBy ["ann"] openWrapper.unwrap).KeyDirectory occupied name →
        occupied.presence (openStore.blobPath (name.map KeyName.text) 0 "ann") ≠ .file) ∧
      ((openStore.readBy ["ann"] openWrapper.unwrap).unwrapAll 0).Gives occupied
        (.error (.io .isADirectory)) := by
  have hkeys := keyDirectory_shelf site_occupied ["ann"]
  have hlookup := lookup_shelf (f := "ann") site_occupied (by decide) (by decide +kernel) rfl
  have hpresence : occupied.presence (openStore.blobPath none 0 "ann") = .directory := by
    rw [Tree.presence, occupied, hlookup]
  have hthere : (openStore.readBy ["ann"] openWrapper.unwrap).CopyThere occupied none 0 "ann" := by
    show occupied.presence (openStore.blobPath none 0 "ann") ≠ .absent
    rw [hpresence]
    exact Presence.noConfusion
  have hfails : (openStore.readBy ["ann"] openWrapper.unwrap).CopyFails occupied none 0 "ann"
      (.io .isADirectory) := .unreadable (by
    show occupied.contentsAt (openStore.blobPath none 0 "ann") = _
    rw [Tree.contentsAt, occupied, hlookup])
  have hkey : ((openStore.readBy ["ann"] openWrapper.unwrap).unwrapKey none 0).Gives occupied
      (.error (.io .isADirectory)) := by
    rw [show (none : Option String) = (none : Option KeyName).map KeyName.text from rfl,
      unwrapKey_readBy]
    exact unwrapWith_of_fails hthere hfails (Attempt.gives_fail _)
  refine ⟨site_occupied.sound, knows_readBy ["ann"], fun name hdir => ?_, ?_⟩
  · rw [(hkeys name).mp hdir]
    show occupied.presence (openStore.blobPath none 0 "ann") ≠ .file
    rw [hpresence]
    exact Presence.noConfusion
  · obtain ⟨keys, hnames, -, hmem⟩ :=
      exists_keyNames (openStore.readBy ["ann"] openWrapper.unwrap) site_occupied.sound
    refine hnames.bind ?_
    rcases unwrapEach_cases (knows_readBy ["ann"]) occupied 0 keys with
      ⟨-, -, hpass, -⟩ | ⟨front, name, back, e, rfl, -, -, he, -, hends⟩
    · rcases hpass none ((hmem none).mpr ((hkeys none).mpr rfl)) with hnone | ⟨kf, hkf⟩
      · exact absurd hthere (hnone "ann" (List.mem_singleton_self _))
      · cases hkf.unique hkey
    · rw [(hkeys name).mp ((hmem name).mp (List.mem_append_right _ List.mem_cons_self))] at he
      cases he.unique hkey
      exact hends

end

end Store

end RepoSeal
