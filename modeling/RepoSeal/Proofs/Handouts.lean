import RepoSeal.Proofs.Changes
import RepoSeal.Proofs.FirstIdentity

/-!
# RepoSeal — what handing a version out leaves behind

Handing out the newest version of a key goes through the fingerprints of its recipients. Who has a copy
already is passed over, and so is who comes up again; each of the others gets a copy in turn (`pending`),
up to the first for whom none can be made (`HandsOut`). The tree gains these copies, the directories on
the way to them and nothing else (`Tree.Gains`): so it is for one copy (`exists_gains_putBlob`), and then
for any number of them (`exists_handsOut_addEach`).

All of this is said of a store whose path goes by what is there and then by ordinary names. Where `..`
comes behind a directory that is missing, nothing can be seen at that path before the directory is made,
and what lies there is written over (`addCollaborators_unseen`).
-/

namespace RepoSeal

namespace Tree

variable {t t' t'' : Tree} {dir : Location} {front names : List String} {first file : String}
  {files files' : List (String × Bytes)} {here : Path}

/-- A tree that has some new private files in the directory to which `names` lead below `dir`, that
directory and those on the way to it if there are any such files, and otherwise just what was there. -/
structure Gains (t t' : Tree) (dir : Location) (names : List String)
    (files : List (String × Bytes)) : Prop where
  sound : t'.Sound
  find?_iff : ∀ loc node, t'.find? loc = some node ↔
    t.find? loc = some node ∨
      (files ≠ [] ∧ node = .directory ∧ ∃ a b, names = a ++ b ∧ loc = dir ++ a) ∨
      ∃ file content, (file, content) ∈ files ∧ loc = dir ++ names ++ [file] ∧
        node = .file content privateMode

namespace Gains

theorem refl (h : t.Sound) (dir : Location) (names : List String) : t.Gains t dir names [] :=
  ⟨h, fun loc node => by simp⟩

theorem append (h : t.Gains t' dir names files) (h' : t'.Gains t'' dir names files') :
    t.Gains t'' dir names (files ++ files') := by
  refine ⟨h'.sound, fun loc node => ?_⟩
  rw [h'.find?_iff, h.find?_iff]
  constructor
  · rintro ((hold | ⟨hne, hdir⟩ | ⟨file, content, hmem, hfile⟩) | ⟨hne, hdir⟩ |
      ⟨file, content, hmem, hfile⟩)
    · exact .inl hold
    · exact .inr (.inl ⟨List.append_ne_nil_of_left_ne_nil hne _, hdir⟩)
    · exact .inr (.inr ⟨file, content, List.mem_append_left _ hmem, hfile⟩)
    · exact .inr (.inl ⟨List.append_ne_nil_of_right_ne_nil _ hne, hdir⟩)
    · exact .inr (.inr ⟨file, content, List.mem_append_right _ hmem, hfile⟩)
  · rintro (hold | ⟨hne, hdir⟩ | ⟨file, content, hmem, hfile⟩)
    · exact .inl (.inl hold)
    · -- the directories come with the first file, be it one of the former or of the latter
      by_cases hnil : files = []
      · rw [hnil, List.nil_append] at hne
        exact .inr (.inl ⟨hne, hdir⟩)
      · exact .inl (.inr (.inl ⟨hnil, hdir⟩))
    · rcases List.mem_append.mp hmem with hmem | hmem
      · exact .inl (.inr (.inr ⟨file, content, hmem, hfile⟩))
      · exact .inr (.inr ⟨file, content, hmem, hfile⟩)

theorem grows (h : t.Gains t' dir names files) : t.Grows t' := fun loc node hnode =>
  (h.find?_iff loc node).mpr (.inl hnode)

theorem site (h : t.Gains t' dir names files) (hsite : t.Site front dir first) :
    t'.Site front dir first := by
  refine hsite.grows h.sound h.grows fun below hfirst target hlink => ?_
  rcases (h.find?_iff _ _).mp hlink with hold | ⟨-, hnode, -⟩ | ⟨file, content, -, -, hnode⟩
  · exact hsite.link_free below hfirst target hold
  · cases hnode
  · cases hnode

theorem chain (h : t.Gains t' dir names files) (hchain : t.Chain dir names) : t'.Chain dir names := by
  intro a b hab
  cases hnode : t'.find? (dir ++ a) with
  | none => exact .inl rfl
  | some node =>
    rcases (h.find?_iff _ _).mp hnode with hold | ⟨-, rfl, -⟩ | ⟨file, content, -, hloc, -⟩
    · rcases hchain a b hab with hnone | hdir
      · rw [hold] at hnone
        cases hnone
      · exact .inr (hold ▸ hdir)
    · exact .inr rfl
    · exact absurd hloc.symm (hab ▸ file_ne_above dir a b file)

/-- A place is still free if it was free and is not that of a new file. -/
theorem find?_file_eq_none (h : t.Gains t' dir names files) (file : String) :
    t'.find? (dir ++ names ++ [file]) = none ↔
      t.find? (dir ++ names ++ [file]) = none ∧ ∀ content, (file, content) ∉ files := by
  simp only [Option.eq_none_iff_forall_ne_some]
  refine ⟨fun hfree => ⟨fun node hnode => hfree node (h.grows _ _ hnode), fun content hmem =>
    hfree _ ((h.find?_iff _ _).mpr (.inr (.inr ⟨file, content, hmem, rfl, rfl⟩)))⟩, ?_⟩
  rintro ⟨hfree, hnot⟩ node hnode
  rcases (h.find?_iff _ _).mp hnode with hold | ⟨-, -, a, b, rfl, hloc⟩ |
    ⟨file', content, hmem, hloc, -⟩
  · exact hfree node hold
  · exact file_ne_above dir a b file hloc
  · cases List.append_cancel_left hloc
    exact hnot content hmem

end Gains

/-- A file that is put into a directory which was laid for it. -/
theorem Laid.gains (h : t.Laid t' dir names here)
    (hdir : t'.find? (dir ++ names) = some .directory)
    (habsent : t'.find? (dir ++ names ++ [file]) = none) (content : Bytes) :
    t.Gains (t'.put (dir ++ names ++ [file]) (.file content privateMode)) dir names
      [(file, content)] := by
  have hgrows := grows_put habsent (.file content privateMode)
  refine ⟨h.sound.put hdir habsent _, fun loc node => ⟨fun hnode => ?_, ?_⟩⟩
  · rw [find?_put] at hnode
    split at hnode
    · rename_i hloc
      cases hnode
      exact .inr (.inr ⟨file, content, List.mem_singleton_self _, hloc, rfl⟩)
    · rcases h.new loc node hnode with hold | ⟨hdirectory, a, b, hab, -, hloc, -⟩
      · exact .inl hold
      · exact .inr (.inl ⟨List.cons_ne_nil _ _, hdirectory, a, b, hab, hloc⟩)
  · rintro (hold | ⟨-, rfl, a, b, rfl, rfl⟩ | ⟨file', content', hmem, rfl, rfl⟩)
    · exact hgrows _ _ (h.grows _ _ hold)
    · refine hgrows _ _ ?_
      by_cases hb : b = []
      · rwa [hb, List.append_nil] at hdir
      · rw [← List.append_assoc] at hdir
        exact h.sound.directory_of_below hb hdir
    · cases List.mem_singleton.mp hmem
      rw [find?_put, if_pos rfl]

/-- A directory that is there need not be made. -/
theorem ensureDirectory_of_presence (hend : here.ending = []) (hne : here.parts ≠ [])
    (h : t.presence here = .directory) : t.ensureDirectory here = (.ok (), t) := by
  rw [ensureDirectory, makeDirectory_of_presence hend hne h]
  dsimp only
  rw [if_pos h]

/-- A directory that is there as soon as the one above it is. -/
theorem makeDirectoriesOn_join {q : Path} {loc : Location} {name : String} (h : t'.Reaches q loc)
    (hname : Path.IsStep name) (hlen : name.utf8ByteSize ≤ maxNameLength)
    (hfits : (q / name).text.utf8ByteSize ≤ maxPathLength)
    (hdir : t'.find? (loc ++ [name]) = some .directory)
    (hmissing : t.lookup .change (q / name) = .error .notFound)
    (hmade : t.makeDirectoriesOn q q.parts = (.ok (), t')) :
    t.makeDirectoriesOn (q / name) (q / name).parts = (.ok (), t') := by
  have hpart := hname.toIsPart
  have hthere : t'.presence (q / name) = .directory :=
    presence_eq_directory.mpr ⟨_, (h.join hname hlen hdir).lookup hfits⟩
  have hne : (q / name).parts ≠ [] := by
    rw [q.parts_join hpart]
    exact List.append_ne_nil_of_right_ne_nil _ (List.cons_ne_nil _ _)
  rw [makeDirectoriesOn_of_missing hne hmissing, Path.parent_join h.ending_eq hpart,
    q.parts_join hpart, List.dropLast_concat, hmade]
  exact ensureDirectory_of_presence (q.ending_join hpart) hne hthere

end Tree

namespace Store

variable {s : Store} {front names : List String} {dir : Location} {first : String} {t t' : Tree}
  {name : Option KeyName} {v : UInt32} {f : String} {entry : KeyEntry} {w : World}

/-! ## One copy -/

/-- Whether there is a copy is seen at its place. -/
theorem presence_blobPath_eq_absent (hs : s.Placed front names first) (hsite : t.Site front dir first)
    (hf : s.NamesFile f) (hfits : (s.blobPath (name.map KeyName.text) v f).Fits) :
    t.presence (s.blobPath (name.map KeyName.text) v f) = .absent ↔
      t.find? (dir ++ s.place names name v f) = none := by
  have hbelow := hs.blobPath_below name v hf
  have hhead := hs.head_place name v f
  refine ⟨fun habsent => ?_, hsite.presence_of_none hbelow hhead⟩
  cases hnode : t.find? (dir ++ s.place names name v f) with
  | none => rfl
  | some node =>
    rw [Tree.presence, hsite.lookup_of_some hbelow hhead hfits hnode] at habsent
    cases node <;> cases habsent

theorem exists_gains_putBlob (hs : s.Placed front names first) (hsite : w.tree.Site front dir first)
    (hchain : w.tree.Chain dir (versionNames names name v)) (hf : s.NamesFile f)
    (hfits : (s.blobPath (name.map KeyName.text) v f).Fits)
    (hnone : w.tree.find? (dir ++ s.place names name v f) = none) (content : Bytes) :
    ∃ tree, (putBlob (s.blobPath (name.map KeyName.text) v f) content).on w =
        (.ok (), { w with tree }) ∧
      w.tree.Gains tree dir (versionNames names name v) [(s.fileName f, content)] := by
  obtain ⟨tree, hlaid, hdir, habsent, hput⟩ :=
    hs.exists_laid_putBlob hsite hchain hf hfits hnone content
  exact ⟨_, hput, hlaid.gains hdir habsent content⟩

/-! ## Any number of copies -/

/-- The recipients who get a copy: those who have none yet, each of them once. -/
def pending (s : Store) (t : Tree) (name : Option KeyName) (v : UInt32) (fs : List String) :
    List String :=
  (fs.filter fun f => t.presence (s.blobPath (name.map KeyName.text) v f) = .absent).eraseDups

theorem pending_of_present {fs : List String}
    (h : t.presence (s.blobPath (name.map KeyName.text) v f) ≠ .absent) :
    s.pending t name v (f :: fs) = s.pending t name v fs := by
  rw [pending, List.filter_cons_of_neg (by simpa using h), pending]

theorem pending_of_absent {fs : List String}
    (h : t.presence (s.blobPath (name.map KeyName.text) v f) = .absent) :
    s.pending t name v (f :: fs) = f :: s.pending t name v (fs.filter (· ≠ f)) := by
  rw [pending, List.filter_cons_of_pos (by simpa using h), List.eraseDups_cons, pending,
    List.filter_filter, List.filter_filter]
  refine congrArg (fun gs => f :: gs.eraseDups) (List.filter_congr fun g _ => ?_)
  rw [Bool.eq_iff_iff]
  simp [and_comm]

/-- Who got a copy is there from then on. -/
theorem pending_filter_ne {fs : List String}
    (h : ∀ g ∈ fs, t'.presence (s.blobPath (name.map KeyName.text) v g) = .absent ↔
      t.presence (s.blobPath (name.map KeyName.text) v g) = .absent ∧ g ≠ f) :
    s.pending t name v (fs.filter (· ≠ f)) = s.pending t' name v fs := by
  rw [pending, pending, List.filter_filter]
  refine congrArg List.eraseDups (List.filter_congr fun g hg => ?_)
  rw [Bool.eq_iff_iff]
  simpa using (h g hg).symm

/-- The random bytes for one copy after some others. -/
def seedAt (s : Store) (w : World) (i : Nat) : Octets s.wrapper.seedLength :=
  (World.draw { w with drawn := w.drawn + i * s.wrapper.seedLength } s.wrapper.seedLength).1

theorem seedAt_zero (s : Store) (w : World) : s.seedAt w 0 = (w.draw s.wrapper.seedLength).1 := by
  rw [seedAt, Nat.zero_mul, Nat.add_zero]

theorem seedAt_succ {w w' : World} (hsupply : w'.supply = w.supply)
    (hdrawn : w'.drawn = w.drawn + s.wrapper.seedLength) (i : Nat) :
    s.seedAt w (i + 1) = s.seedAt w' i := by
  have hindex : w.drawn + (i + 1) * s.wrapper.seedLength = w'.drawn + i * s.wrapper.seedLength := by
    rw [hdrawn, Nat.succ_mul]
    omega
  rw [seedAt, seedAt, hindex]
  unfold World.draw
  rw [hsupply]

/-- What handing a version out comes to, `done` being the copies that are made, each for one recipient:
they are for those who have none yet, in turn, up to the first for whom none can be made, and the tree
gains them. -/
structure HandsOut (s : Store) (dir : Location) (names : List String) (name : Option KeyName)
    (entry : KeyEntry) (trusted : Bool) (fs : List String) (done : List (String × Bytes))
    (w : World) (o : Except Error (List Path) × World) : Prop where
  wrapped : ∀ i f blob, done[i]? = some (f, blob) →
    s.wrapper.wrap (s.seedAt w i) (KeyFile.single name entry).encode f trusted = .ok blob
  ends :
    (s.pending w.tree name entry.version fs = done.map Prod.fst ∧
      o.1 = .ok (done.map fun d => s.blobPath (name.map KeyName.text) entry.version d.1) ∧
      o.2.drawn = w.drawn + done.length * s.wrapper.seedLength) ∨
    ∃ f rest e, s.pending w.tree name entry.version fs = done.map Prod.fst ++ f :: rest ∧
      s.wrapper.wrap (s.seedAt w done.length) (KeyFile.single name entry).encode f trusted =
        .error e ∧
      o.1 = .error e ∧ o.2.drawn = w.drawn + (done.length + 1) * s.wrapper.seedLength
  gains : w.tree.Gains o.2.tree dir (versionNames names name entry.version)
    (done.map fun d => (s.fileName d.1, d.2))

section

variable {trusted : Bool} {fs : List String} {done : List (String × Bytes)}

/-- A copy in front of those for the others. -/
theorem HandsOut.cons {w' : World} {blob : Bytes} {o : Except Error (List Path) × World}
    (hpending : s.pending w.tree name entry.version (f :: fs) =
      f :: s.pending w'.tree name entry.version fs)
    (hwrap : s.wrapper.wrap (s.seedAt w 0) (KeyFile.single name entry).encode f trusted = .ok blob)
    (hgains : w.tree.Gains w'.tree dir (versionNames names name entry.version)
      [(s.fileName f, blob)])
    (hsupply : w'.supply = w.supply) (hdrawn : w'.drawn = w.drawn + s.wrapper.seedLength)
    (h : s.HandsOut dir names name entry trusted fs done w' o) :
    s.HandsOut dir names name entry trusted (f :: fs) ((f, blob) :: done) w
      (o.1.map (s.blobPath (name.map KeyName.text) entry.version f :: ·), o.2) where
  wrapped := by
    intro i g blob' hi
    cases i with
    | zero =>
      cases hi
      exact hwrap
    | succ i =>
      rw [seedAt_succ hsupply hdrawn]
      exact h.wrapped i g blob' hi
  ends := by
    rcases h.ends with ⟨hall, hresult, hcount⟩ | ⟨g, rest, e, hsplit, herror, hresult, hcount⟩
    · refine .inl ⟨by rw [hpending, hall, List.map_cons], by rw [hresult]; rfl, ?_⟩
      rw [hcount, hdrawn, List.length_cons, Nat.succ_mul]
      omega
    · refine .inr ⟨g, rest, e, by rw [hpending, hsplit, List.map_cons, List.cons_append], ?_,
        by rw [hresult]; rfl, ?_⟩
      · rw [List.length_cons, seedAt_succ hsupply hdrawn]
        exact herror
      · rw [hcount, hdrawn, List.length_cons, Nat.succ_mul (done.length + 1)]
        omega
  gains := hgains.append h.gains

/-- The next one for whom no copy can be made is the end of it. -/
theorem HandsOut.stopped {w' : World} {e : Error} (hsound : w.tree.Sound)
    (habsent : w.tree.presence (s.blobPath (name.map KeyName.text) entry.version f) = .absent)
    (hwrap : s.wrapper.wrap (s.seedAt w 0) (KeyFile.single name entry).encode f trusted = .error e)
    (htree : w'.tree = w.tree) (hdrawn : w'.drawn = w.drawn + s.wrapper.seedLength) :
    s.HandsOut dir names name entry trusted (f :: fs) [] w (.error e, w') where
  wrapped i g blob hi := by cases hi
  ends := .inr ⟨f, _, e, pending_of_absent habsent, hwrap, rfl, by
    rw [hdrawn, List.length_nil, Nat.zero_add, Nat.one_mul]⟩
  gains := htree ▸ .refl hsound dir _

theorem exists_handsOut_addEach (hs : s.Placed front names first)
    (hsite : w.tree.Site front dir first)
    (hchain : w.tree.Chain dir (versionNames names name entry.version))
    (hf : ∀ f ∈ fs, s.NamesFile f)
    (hfits : ∀ f ∈ fs, (s.blobPath (name.map KeyName.text) entry.version f).Fits) (trusted : Bool) :
    ∃ done, s.HandsOut dir names name entry trusted fs done w
      ((s.addEach (.single name entry) entry.version trusted fs).on w) := by
  induction fs generalizing w with
  | nil =>
    have hdrawn : w.drawn = w.drawn + 0 * s.wrapper.seedLength := by rw [Nat.zero_mul, Nat.add_zero]
    exact ⟨[], ⟨fun i f blob hi => (by cases hi), .inl ⟨rfl, rfl, hdrawn⟩, .refl hsite.sound _ _⟩⟩
  | cons f fs ih =>
    obtain ⟨hf, hfs⟩ := List.forall_mem_cons.mp hf
    obtain ⟨hfit, hfits⟩ := List.forall_mem_cons.mp hfits
    by_cases habsent : w.tree.presence (s.blobPath (name.map KeyName.text) entry.version f) = .absent
    case neg =>
      rw [on_addEach_present habsent]
      obtain ⟨done, h⟩ := ih (w := { w with log := w.log ++ [presentEvent _] }) hsite hchain hfs hfits
      exact ⟨done, h.wrapped, by rw [pending_of_present habsent]; exact h.ends, h.gains⟩
    rw [on_addEach_absent habsent, on_wrapFor, ← seedAt_zero]
    cases hwrap : s.wrapper.wrap (s.seedAt w 0) (KeyFile.single name entry).encode f trusted with
    | error e => exact ⟨[], .stopped hsite.sound habsent hwrap rfl rfl⟩
    | ok blob =>
      dsimp only
      have hnone := (presence_blobPath_eq_absent hs hsite hf hfit).mp habsent
      obtain ⟨tree, hput, hgains⟩ := exists_gains_putBlob (w := { w with
          log := w.log ++ s.wrapper.wrapEvents f trusted
          drawn := w.drawn + s.wrapper.seedLength }) hs hsite hchain hf hfit hnone blob
      rw [hput]
      let w' : World := { w with
        tree
        log := w.log ++ s.wrapper.wrapEvents f trusted ++ [addedEvent name entry.version f]
        drawn := w.drawn + s.wrapper.seedLength }
      have hsite' : w'.tree.Site front dir first := hgains.site hsite
      obtain ⟨done, h⟩ := ih hsite' (hgains.chain hchain) hfs hfits
      -- who has none after this one is who had none before, this one apart
      have hpending : s.pending w.tree name entry.version (fs.filter (· ≠ f)) =
          s.pending w'.tree name entry.version fs := by
        refine pending_filter_ne fun g hg => ?_
        rw [presence_blobPath_eq_absent hs hsite' (hfs g hg) (hfits g hg),
          presence_blobPath_eq_absent hs hsite (hfs g hg) (hfits g hg), place, ← List.append_assoc,
          hgains.find?_file_eq_none]
        refine and_congr_right fun _ => ⟨fun hnot heq => hnot blob (by rw [heq]; simp), ?_⟩
        intro hne content hmem
        exact hne (fileName_injective (congrArg Prod.fst (List.mem_singleton.mp hmem)))
      exact ⟨(f, blob) :: done, HandsOut.cons ((pending_of_absent habsent).trans
        (congrArg _ hpending)) hwrap hgains rfl rfl h⟩

end

/-! ## All recipients -/

/-- The first failure counts. -/
theorem mapM_eq_error {α β ε : Type} {g : α → Except ε β} {front back : List α} {x : α} {e : ε}
    (hfront : ∀ y ∈ front, ∃ z, g y = .ok z) (h : g x = .error e) :
    (front ++ x :: back).mapM g = .error e := by
  induction front with
  | nil =>
    rw [List.nil_append, List.mapM_cons, h]
    rfl
  | cons y front ih =>
    obtain ⟨⟨z, hz⟩, hfront⟩ := List.forall_mem_cons.mp hfront
    rw [List.cons_append, List.mapM_cons, hz, ih hfront]
    rfl

/-- Valid recipients get the newest version. -/
theorem on_addCollaborators {kf : KeyFile} {recipients fs : List String}
    (hfs : List.Forall₂ (fun r f => s.wrapper.fingerprint r = .ok f) recipients fs)
    (hmem : entry ∈ kf.entries) (hmax : ∀ e ∈ kf.entries, e.version ≤ entry.version)
    (trusted : Bool) (w : World) :
    (s.addCollaborators kf recipients trusted).on w =
      (s.addEach (.single kf.name entry) entry.version trusted fs).on w := by
  rw [addCollaborators, mapM_eq_ok.mpr hfs, Attempt.on_bind, Attempt.on_ofExcept]
  dsimp only
  rw [Attempt.on_bind, Attempt.on_ofExcept, KeyFile.requireLatest,
    KeyFile.getLatest?_eq_some.mpr ⟨hmem, hmax⟩]
  dsimp only
  rw [Attempt.on_bind, Attempt.on_ofExcept, KeyFile.add_empty]

/-- **What handing a key out leaves behind.** If a recipient is not valid, or if there is no version, that
is the error and nothing has changed. Otherwise the newest version is handed out to the recipients who
have no copy of it, in turn, up to the first for whom none can be made: the tree gains these copies, and
nothing else in it is different. -/
theorem addCollaborators_exact (s : Store) (w : World) (kf : KeyFile) (recipients : List String)
    (trusted : Bool) :
    (∀ before text after e, recipients = before ++ text :: after →
      (∀ r ∈ before, ∃ f, s.wrapper.fingerprint r = .ok f) → s.wrapper.fingerprint text = .error e →
      (s.addCollaborators kf recipients trusted).on w = (.error e, w)) ∧
    ∀ fs, List.Forall₂ (fun r f => s.wrapper.fingerprint r = .ok f) recipients fs →
      (kf.entries = [] → (s.addCollaborators kf recipients trusted).on w =
        (.error (.keyNotFound (.noEntries kf.shownName)), w)) ∧
      ∀ entry front dir names first, entry ∈ kf.entries →
        (∀ e ∈ kf.entries, e.version ≤ entry.version) →
        s.Placed front names first → w.tree.Site front dir first →
        w.tree.Chain dir (versionNames names kf.name entry.version) →
        (∀ f ∈ fs, s.NamesFile f) →
        (∀ f ∈ fs, (s.blobPath (kf.name.map KeyName.text) entry.version f).Fits) →
        ∃ done, s.HandsOut dir names kf.name entry trusted fs done w
          ((s.addCollaborators kf recipients trusted).on w) := by
  refine ⟨fun before text after e hsplit hbefore herror => ?_, fun fs hfs => ⟨fun hnone => ?_,
    fun entry front dir names first hmem hmax hs hsite hchain hf hfits => ?_⟩⟩
  · rw [addCollaborators, hsplit, mapM_eq_error hbefore herror, Attempt.on_bind, Attempt.on_ofExcept]
  · rw [addCollaborators, mapM_eq_ok.mpr hfs, Attempt.on_bind, Attempt.on_ofExcept]
    dsimp only
    rw [Attempt.on_bind, Attempt.on_ofExcept, KeyFile.requireLatest,
      KeyFile.getLatest?_eq_none.mpr hnone]
  · rw [on_addCollaborators hfs hmem hmax]
    exact exists_handsOut_addEach hs hsite hchain hf hfits trusted

/-- Who has a copy is passed over, and a new recipient who comes up twice gets one. -/
theorem addCollaborators_exact_halfBroken :
    ((openStore.addCollaborators (.single none (plainEntry 9)) ["bo", "cy", "cy"] true).on
      { tree := halfBroken }).2.tree.find? [".git-crypt", "keys", "default", "0", "cy.open"] =
        some (.file (utf8 "cy" ++ (KeyFile.single none (plainEntry 9)).encode) Tree.privateMode) := by
  have hplain : ∀ f ∈ ["bo", "cy", "cy"], PlainFingerprint f := by decide
  have hs : openStore.Placed [] [".git-crypt", "keys"] ".git-crypt" :=
    ⟨⟨by decide, by decide, by decide, by decide⟩, rfl, by decide⟩
  obtain ⟨-, hexact⟩ := addCollaborators_exact openStore { tree := halfBroken }
    (.single none (plainEntry 9)) ["bo", "cy", "cy"] true
  have hfs : List.Forall₂ (fun r f => openStore.wrapper.fingerprint r = .ok f) ["bo", "cy", "cy"]
      ["bo", "cy", "cy"] :=
    List.forall₂_same.mpr fun f hf => openStore_fingerprint (hplain f hf)
  obtain ⟨done, hdone⟩ := (hexact _ hfs).2 (plainEntry 9) [] [] [".git-crypt", "keys"] ".git-crypt"
    (List.mem_singleton_self _) (by simp [KeyFile.single]) hs site_halfBroken
    (site_halfBroken.sound.chain rfl) (fun f hf => hs.namesFile (hplain f hf)) (by decide +kernel)
  have hbo : halfBroken.presence (openStore.blobPath ((none : Option KeyName).map KeyName.text) 0
      "bo") ≠ .absent := (copyOpens_halfBroken []).there
  have hcy : halfBroken.presence (openStore.blobPath ((none : Option KeyName).map KeyName.text) 0
      "cy") = .absent :=
    (presence_blobPath_eq_absent hs site_halfBroken (hs.namesFile (by decide))
      (by decide +kernel)).mpr (by decide)
  have hpending : openStore.pending halfBroken none 0 ["bo", "cy", "cy"] = ["cy"] := by
    rw [pending_of_present hbo, pending_of_absent hcy]
    rfl
  rcases hdone.ends with ⟨hall, -⟩ | ⟨f, -, e, -, herror, -⟩
  · obtain ⟨⟨_, blob⟩, rfl, rfl⟩ := List.map_eq_singleton_iff.mp (hall.symm.trans hpending)
    have hwrap := hdone.wrapped 0 "cy" blob rfl
    rw [openStore_wrap, KeyFile.name_single] at hwrap
    rw [Except.ok.inj hwrap]
    exact (hdone.gains.find?_iff _ _).mpr
      (.inr (.inr ⟨"cy.open", blob, List.mem_singleton_self _, rfl, rfl⟩))
  · rw [openStore_wrap] at herror
    cases herror

/-! ## A path that cannot be seen -/

/-- A store whose path goes through a directory and out of it again. -/
def detour : Store := ⟨Path.mk "a/.." / ".git-crypt", openWrapper⟩

/-- A tree without the directory that the detour goes through. -/
def unpaved : Tree := shelf [("bo.open", .file [1] Tree.privateMode)]

/-- The same with this directory. -/
def paved : Tree := unpaved.put ([] ++ ["a"]) .directory

/-- Below a directory that is missing, nothing is seen. -/
theorem lookup_unpaved {p : Path} {x : String} {rest : List String} (hrel : p.isAbsolute = false)
    (hend : p.ending = []) (hnul : '\x00' ∉ p.text.toList)
    (hlen : p.text.utf8ByteSize ≤ Tree.maxPathLength) (hparts : p.parts = "a" :: x :: rest)
    (purpose : Tree.Purpose) : unpaved.lookup purpose p = .error .notFound := by
  have hx : x ≠ "/" := Tree.ne_slash_of_isPart (Path.isPart_of_mem_parts (p := p) (by simp [hparts]))
  have hlast : Tree.isLast (x :: rest) = false := by simp [Tree.isLast, hx]
  rw [Tree.lookup_eq_walk hrel hend hnul, if_neg (Nat.not_lt.mpr hlen), hparts,
    Tree.walk_name (by decide) (by decide) (by decide), if_neg (by decide), hlast, Bool.and_false,
    if_neg Bool.false_ne_true]
  rfl

theorem isStep_of (name : String)
    (h : name ≠ "" ∧ '/' ∉ name.toList ∧ name ≠ "." ∧ name ≠ ".." ∧ '\x00' ∉ name.toList) :
    Path.IsStep name :=
  ⟨⟨h.1, h.2.1, h.2.2.1⟩, h.2.2.2.1, h.2.2.2.2⟩

/-- A directory behind the detour: it is not seen before the detour is there, and is there then. -/
structure Behind (q : Path) (loc : Location) : Prop where
  reaches : paved.Reaches q loc
  made : unpaved.makeDirectoriesOn q q.parts = (.ok (), paved)
  below : ∃ x rest, q.parts = "a" :: x :: rest

theorem makeDirectory_unpaved : unpaved.makeDirectory ⟨"a"⟩ = .ok paved := by
  have hentry : unpaved.NamesEntry ⟨"a"⟩ [] "a" :=
    ⟨by decide, by decide, by decide, by decide, by decide, by decide, by decide, by decide,
      [], Tree.maxLinks, by decide, .done _ _⟩
  rw [Tree.makeDirectory, hentry.lookup_change]
  rfl

theorem behind_start : Behind ⟨"a/.."⟩ [] := by
  have hreaches : paved.Reaches ⟨"a/.."⟩ [] := ⟨by decide, by decide, by decide, _,
    .into (by decide) (by decide) (by decide) (by decide) rfl (.up (by decide) (.done _ _))⟩
  have hparts : (Path.mk "a/..").parts = ["a", ".."] := by decide
  refine ⟨hreaches, ?_, "..", [], hparts⟩
  have hmissing := lookup_unpaved hreaches.relative hreaches.ending_eq hreaches.no_nul (by decide)
    hparts .change
  have hparent : (Path.mk "a/..").parent = ⟨"a"⟩ := by decide
  have hfirst : unpaved.makeDirectoriesOn ⟨"a"⟩ ["a"] = (.ok (), paved) := by
    rw [Tree.makeDirectoriesOn, dif_neg (by decide), makeDirectory_unpaved]
  rw [Tree.makeDirectoriesOn_of_missing (by decide) hmissing, hparent, hparts,
    show ["a", ".."].dropLast = ["a"] from rfl, hfirst]
  exact Tree.ensureDirectory_of_presence hreaches.ending_eq (by decide)
    (Tree.presence_eq_directory.mpr ⟨_, hreaches.lookup (by decide)⟩)

theorem Behind.join {q : Path} {loc : Location} {name : String} (h : Behind q loc)
    (hname : Path.IsStep name) (hlen : name.utf8ByteSize ≤ Tree.maxNameLength)
    (hfits : (q / name).text.utf8ByteSize ≤ Tree.maxPathLength)
    (hdir : paved.find? (loc ++ [name]) = some .directory) : Behind (q / name) (loc ++ [name]) := by
  obtain ⟨hreaches, hmade, x, rest, hparts⟩ := h
  have hjoin := hreaches.join hname hlen hdir
  have hparts' : (q / name).parts = "a" :: x :: (rest ++ [name]) := by
    rw [q.parts_join hname.toIsPart, hparts]
    rfl
  have hmissing := lookup_unpaved hjoin.relative hjoin.ending_eq hjoin.no_nul hfits hparts' .change
  exact ⟨hjoin, Tree.makeDirectoriesOn_join hreaches hname hlen hfits hdir hmissing hmade, x, _,
    hparts'⟩

theorem behind_versionDir :
    Behind (detour.keyDir none / "0") [".git-crypt", "keys", "default", "0"] := by
  have hbase := behind_start.join (isStep_of ".git-crypt" (by decide)) (by decide)
    (by decide) rfl
  have hroot := hbase.join (isStep_of "keys" (by decide)) (by decide) (by decide) rfl
  have hkey := hroot.join (isStep_of "default" (by decide)) (by decide) (by decide) rfl
  exact hkey.join (isStep_of "0" (by decide)) (by decide) (by decide +kernel) rfl

/-- What lies behind a detour is not seen before the directory on it is made, and then it is written
over. -/
theorem addCollaborators_unseen :
    unpaved.Sound ∧ (∀ loc target, unpaved.find? loc ≠ some (.link target)) ∧
      unpaved.find? [".git-crypt", "keys", "default", "0", "bo.open"] =
        some (.file [1] Tree.privateMode) ∧
      ((detour.addCollaborators (.single none (plainEntry 7)) ["bo"] true).on
        { tree := unpaved }).2.tree.find? [".git-crypt", "keys", "default", "0", "bo.open"] =
          some (.file (utf8 "bo" ++ (KeyFile.single none (plainEntry 7)).encode)
            Tree.privateMode) := by
  refine ⟨Tree.sound_of_nodes (by decide) (by decide), Tree.not_link_of_nodes (by decide), rfl, ?_⟩
  have hfs : List.Forall₂ (fun r f => detour.wrapper.fingerprint r = .ok f) ["bo"] ["bo"] :=
    .cons (openStore_fingerprint (by decide)) .nil
  have hplace : detour.blobPath ((none : Option KeyName).map KeyName.text) (plainEntry 7).version
      "bo" = detour.keyDir none / "0" / "bo.open" := by decide +kernel
  have hholder : Tree.holderOf (detour.keyDir none / "0" / "bo.open") = detour.keyDir none / "0" := by
    decide +kernel
  have habsent : unpaved.presence (detour.blobPath ((none : Option KeyName).map KeyName.text)
      (plainEntry 7).version "bo") = .absent := by
    rw [hplace, Tree.presence, lookup_unpaved (by decide +kernel) (by decide +kernel)
      (by decide +kernel) (by decide +kernel) (show _ = "a" :: ".." ::
        [".git-crypt", "keys", "default", "0", "bo.open"] by decide +kernel)]
  have hmade : unpaved.makeDirectories (detour.keyDir none / "0") = (.ok (), paved) := by
    rw [Tree.makeDirectories, behind_versionDir.reaches.relative, Bool.false_and,
      if_neg Bool.false_ne_true, behind_versionDir.made]
  have hput := (behind_versionDir.reaches.accepts rfl (by decide +kernel)
    (isStep_of "bo.open" (by decide)) (by decide) (by decide +kernel) (by decide)).put
  have hwrap : ∀ seed plaintext,
      detour.wrapper.wrap seed plaintext "bo" true = .ok (utf8 "bo" ++ plaintext) := fun _ _ => rfl
  rw [on_addCollaborators hfs (List.mem_singleton_self _) (by simp [KeyFile.single]),
    KeyFile.name_single, on_addEach_absent (w := { tree := unpaved }) habsent, on_wrapFor, hwrap]
  dsimp only
  rw [on_putBlob, hplace, hholder]
  dsimp only
  rw [hmade]
  dsimp only
  rw [hput]
  exact (Tree.find?_put _ _ _ _ _).trans (if_pos rfl)

end Store

end RepoSeal
