import RepoSeal.Proofs.Register

/-!
# RepoSeal — the tree follows the register

Each grant is written into the register (`Register.grant`) and carried out on the tree (`afterGrant`).
A copy is put in its place if the path of it fits, and otherwise at most directories are made; so
whatever happens on the way, the tree mirrors the register after a grant (`tracks_afterGrant`), and
after any number of them (`Fresh.afterGrants`).
-/

namespace RepoSeal.Store

variable {s : Store} {front names : List String} {dir : Location} {first : String} {t : Tree}
  {r : Register} {name : Option KeyName} {v : UInt32} {f : String} {entry : KeyEntry} {w : World}

/-! ## One recipient -/

theorem on_wrapFor (s : Store) (plaintext : Bytes) (f : String) (trusted : Bool) (w : World) :
    (s.wrapFor plaintext f trusted).on w =
      (s.wrapper.wrap (w.draw s.wrapper.seedLength).1 plaintext f trusted,
        { w with
          log := w.log ++ s.wrapper.wrapEvents f trusted
          drawn := w.drawn + s.wrapper.seedLength }) := by
  rw [wrapFor, Attempt.on_bind, Attempt.on_ask, Plan.run_log]
  dsimp only
  rw [Attempt.on_bind, Attempt.on_ask, Plan.run_random]
  rfl

theorem on_putBlob (p : Path) (content : Bytes) (w : World) :
    (putBlob p content).on w =
      match w.tree.makeDirectories (Tree.holderOf p) with
      | (.error fault, tree) => (.error (.io fault), { w with tree })
      | (.ok _, tree) =>
        match tree.replaceFile p content with
        | .ok tree => (.ok (), { w with tree })
        | .error fault => (.error (.io fault), { w with tree }) := by
  rw [putBlob, Attempt.on_bind, Attempt.on_orFault, Plan.run_makeDirectories]
  rcases w.tree.makeDirectories (Tree.holderOf p) with ⟨_ | _, tree⟩
  · rfl
  · dsimp only [Except.mapError]
    rw [Attempt.on_orFault, Plan.run_replaceFile]
    dsimp only
    cases tree.replaceFile p content with
    | ok tree' => rfl
    | error fault => rfl

/-- Who has a copy already is passed over. -/
theorem on_addEach_present {trusted : Bool} {fs : List String}
    (h : w.tree.presence (s.blobPath (name.map KeyName.text) v f) ≠ .absent) :
    (s.addEach (.single name entry) v trusted (f :: fs)).on w =
      (s.addEach (.single name entry) v trusted fs).on { w with
        log := w.log ++ [presentEvent (s.blobPath (name.map KeyName.text) v f)] } := by
  rw [addEach, KeyFile.name_single, Attempt.on_bind, Attempt.on_ask, Plan.run_exists]
  dsimp only
  rw [if_pos (decide_eq_true h), Attempt.on_bind, Attempt.on_ask, Plan.run_log]

/-- Who has none gets one, or there is an end of it. -/
theorem on_addEach_absent {trusted : Bool} {fs : List String}
    (h : w.tree.presence (s.blobPath (name.map KeyName.text) v f) = .absent) :
    (s.addEach (.single name entry) v trusted (f :: fs)).on w =
      match (s.wrapFor (KeyFile.single name entry).encode f trusted).on w with
      | (.error e, w') => (.error e, w')
      | (.ok blob, w') =>
        match (putBlob (s.blobPath (name.map KeyName.text) v f) blob).on w' with
        | (.error e, w') => (.error e, w')
        | (.ok _, w') =>
          let (r, w') := (s.addEach (.single name entry) v trusted fs).on { w' with
            log := w'.log ++ [addedEvent name v f] }
          (r.map (s.blobPath (name.map KeyName.text) v f :: ·), w') := by
  have hnot : ¬ decide (w.tree.presence (s.blobPath (name.map KeyName.text) v f) ≠ .absent) =
      true := by
    rw [decide_eq_true_eq, not_not]
    exact h
  rw [addEach, KeyFile.name_single, Attempt.on_bind, Attempt.on_ask, Plan.run_exists]
  dsimp only
  rw [if_neg hnot, Attempt.on_bind]
  rcases (s.wrapFor (KeyFile.single name entry).encode f trusted).on w with ⟨_ | blob, w'⟩
  · rfl
  · dsimp only
    rw [Attempt.on_bind]
    rcases (putBlob (s.blobPath (name.map KeyName.text) v f) blob).on w' with ⟨_ | _, w''⟩
    · rfl
    · dsimp only
      rw [Attempt.on_bind, Attempt.on_ask, Plan.run_log]
      dsimp only
      rw [Attempt.on_bind_pure]

/-! ## Putting a copy in its place -/

/-- A file is put at a free place, once the directories on the way are laid. -/
theorem Placed.exists_laid_putBlob (hs : s.Placed front names first)
    (hsite : w.tree.Site front dir first) (hchain : w.tree.Chain dir (versionNames names name v))
    (hf : s.NamesFile f) (hfits : (s.blobPath (name.map KeyName.text) v f).Fits)
    (hnone : w.tree.find? (dir ++ s.place names name v f) = none) (content : Bytes) :
    ∃ tree, w.tree.Laid tree dir (versionNames names name v) (s.versionDir name v) ∧
      tree.find? (dir ++ versionNames names name v) = some .directory ∧
      tree.find? (dir ++ versionNames names name v ++ [s.fileName f]) = none ∧
      (putBlob (s.blobPath (name.map KeyName.text) v f) content).on w = (.ok (), { w with
        tree := tree.put (dir ++ versionNames names name v ++ [s.fileName f])
          (.file content Tree.privateMode) }) := by
  have hbelow := hs.blobPath_below name v hf
  have hhead := hs.head_version name v
  obtain ⟨hlaid, hmade⟩ := hsite.makeDirectories_below (hs.versionDir_below name v) hhead hchain
  rw [on_putBlob, hs.holderOf_blobPath name v hf]
  generalize w.tree.makeDirectories (s.versionDir name v) = made at hlaid hmade
  obtain ⟨o, tree⟩ := made
  have hversion : (s.versionDir name v).Fits := by
    rw [← hs.parent_blobPath name v hf]
    exact hbelow.fits_parent hfits
  obtain ⟨rfl, hdir⟩ := hmade hversion
  rw [place, ← List.append_assoc] at hnone
  have habsent := hlaid.find?_file hnone
  have hfree : tree.find? (dir ++ versionNames names name v ++ [s.fileName f]) ≠
      some .directory := by
    rw [habsent]
    simp
  refine ⟨tree, hlaid, hdir, habsent, ?_⟩
  dsimp only
  rw [(hlaid.site hsite).replaceFile_of_fits hbelow hhead hdir hfree hfits content]

/-- If the path fits, the copy comes to lie in its place. -/
theorem Mirrors.on_putBlob_of_fits (h : s.Mirrors front dir names first w.tree r)
    (hs : s.Placed front names first) (hf : PlainFingerprint f)
    (hnone : r.copies name entry.version f = none)
    (hfits : (s.blobPath (name.map KeyName.text) entry.version f).Fits)
    {seed : Octets s.wrapper.seedLength} {trusted : Bool} {content : Bytes}
    (hwrap : s.wrapper.wrap seed (KeyFile.single name entry).encode f trusted = .ok content) :
    ∃ tree, (putBlob (s.blobPath (name.map KeyName.text) entry.version f) content).on w =
        (.ok (), { w with tree }) ∧
      s.Mirrors front dir names first tree (r.insert name entry f) := by
  obtain ⟨tree, hlaid, hdir, -, hput⟩ := hs.exists_laid_putBlob h.site (h.chain hs name entry.version)
    (hs.namesFile hf) hfits (h.absent hs hnone) content
  exact ⟨_, hput, (h.laid hlaid).put hs hf hnone hdir hfits hwrap Tree.privateMode⟩

/-- If it does not fit, nothing comes of it but directories. -/
theorem Mirrors.on_putBlob_of_not_fits (h : s.Mirrors front dir names first w.tree r)
    (hs : s.Placed front names first) (hf : PlainFingerprint f)
    (hnot : ¬ (s.blobPath (name.map KeyName.text) v f).Fits) (content : Bytes) :
    ∃ e tree, (putBlob (s.blobPath (name.map KeyName.text) v f) content).on w =
        (.error e, { w with tree }) ∧
      s.Mirrors front dir names first tree r := by
  have hfile := hs.namesFile hf
  have hbelow := hs.blobPath_below name v hfile
  have hhead := hs.head_version name v
  obtain ⟨hlaid, -⟩ := h.site.makeDirectories_below (hs.versionDir_below name v) hhead
    (h.chain hs name v)
  rw [on_putBlob, hs.holderOf_blobPath name v hfile]
  generalize w.tree.makeDirectories (s.versionDir name v) = made at hlaid
  obtain ⟨o, tree⟩ := made
  have hmirrors := h.laid hlaid
  cases o with
  | error fault => exact ⟨.io fault, tree, rfl, hmirrors⟩
  | ok _ =>
    obtain ⟨fault, hreplace⟩ := hmirrors.site.replaceFile_of_not_fits hbelow
      (hs.head_place name v f) (hmirrors.chain hs name v) hnot content
    refine ⟨.io fault, tree, ?_, hmirrors⟩
    dsimp only
    rw [hreplace]

section

variable {α β ε : Type} {g : α → Except ε β} {l : List α} {ys : List β}

/-- All of them succeed, each with its own result. -/
theorem mapM_eq_ok : l.mapM g = .ok ys ↔ List.Forall₂ (fun x y => g x = .ok y) l ys := by
  constructor
  · intro h
    induction l generalizing ys with
    | nil =>
      cases h
      exact .nil
    | cons x l ih =>
      rw [List.mapM_cons] at h
      cases hx : g x with
      | error e =>
        rw [hx] at h
        cases h
      | ok z =>
        cases hl : l.mapM g with
        | error e =>
          rw [hx, hl] at h
          cases h
        | ok zs =>
          rw [hx, hl] at h
          cases h
          exact .cons hx (ih hl)
  · intro h
    induction h with
    | nil => rfl
    | cons hx _ ih =>
      rw [List.mapM_cons, hx, ih]
      rfl

theorem exists_of_mem_mapM {y : β} (h : l.mapM g = .ok ys) (hy : y ∈ ys) :
    ∃ x ∈ l, g x = .ok y := by
  replace h := mapM_eq_ok.mp h
  induction h with
  | nil => cases hy
  | cons hx _ ih =>
    rcases List.mem_cons.mp hy with rfl | hy
    · exact ⟨_, List.mem_cons_self, hx⟩
    · obtain ⟨x, hmem, hfx⟩ := ih hy
      exact ⟨x, List.mem_cons_of_mem _ hmem, hfx⟩

end

/-! ## Runs -/

/-- Surroundings whose tree is that of a register, with the same supply of random bytes. -/
structure Tracks (s : Store) (front : List String) (dir : Location) (names : List String)
    (first : String) (supply : Nat → UInt8) (w : World) (r : Register) : Prop where
  supply_eq : w.supply = supply
  drawn_eq : w.drawn = r.drawn
  mirrors : s.Mirrors front dir names first w.tree r

variable {supply : Nat → UInt8}

/-- The tree follows the register through a handing out. -/
theorem tracks_addEach (hs : s.Placed front names first) {fs : List String}
    (hfs : ∀ f ∈ fs, PlainFingerprint f) (trusted : Bool)
    (h : s.Tracks front dir names first supply w r) :
    s.Tracks front dir names first supply
      ((s.addEach (.single name entry) entry.version trusted fs).on w).2
      (r.handOut s supply name entry trusted fs) := by
  induction fs generalizing w r with
  | nil => exact h
  | cons f fs ih =>
    obtain ⟨hf, hfs⟩ := List.forall_mem_cons.mp hfs
    obtain ⟨hsupply, hdrawn, hmirrors⟩ := h
    have hthere := hmirrors.presence_blobPath hs name entry.version hf
    rw [Register.handOut]
    by_cases hsome : (r.copies name entry.version f).isSome = true
    · rw [if_pos hsome, on_addEach_present (hthere.mpr hsome)]
      exact ih hfs ⟨hsupply, hdrawn, hmirrors⟩
    have hnone : r.copies name entry.version f = none := by simpa using hsome
    have habsent : w.tree.presence (s.blobPath (name.map KeyName.text) entry.version f) = .absent :=
      not_not.mp fun hpresent => hsome (hthere.mp hpresent)
    have hseed : (w.draw s.wrapper.seedLength).1 = r.seed supply s.wrapper.seedLength := by
      rw [Register.seed, ← hsupply, ← hdrawn]
      rfl
    -- making a copy takes random bytes, whether or not it succeeds
    have hdrawn' : w.drawn + s.wrapper.seedLength = r.drawn + s.wrapper.seedLength := by rw [hdrawn]
    have hmirrors' := hmirrors.drawing (r.drawn + s.wrapper.seedLength)
    rw [if_neg hsome, on_addEach_absent habsent, on_wrapFor, hseed]
    cases hwrap : s.wrapper.wrap (r.seed supply s.wrapper.seedLength)
        (KeyFile.single name entry).encode f trusted with
    | error e => exact ⟨hsupply, hdrawn', hmirrors'⟩
    | ok content =>
      dsimp only
      by_cases hfits : (s.blobPath (name.map KeyName.text) entry.version f).Fits
      · obtain ⟨tree, hput, hmirrors'⟩ := Mirrors.on_putBlob_of_fits (w := { w with
          log := w.log ++ s.wrapper.wrapEvents f trusted
          drawn := w.drawn + s.wrapper.seedLength }) hmirrors' hs hf hnone hfits hwrap
        rw [if_pos hfits, hput]
        exact ih hfs ⟨hsupply, hdrawn', hmirrors'⟩
      · obtain ⟨e, tree, hput, hmirrors'⟩ := Mirrors.on_putBlob_of_not_fits (w := { w with
          log := w.log ++ s.wrapper.wrapEvents f trusted
          drawn := w.drawn + s.wrapper.seedLength }) hmirrors' hs hf hfits content
        rw [if_neg hfits, hput]
        exact ⟨hsupply, hdrawn', hmirrors'⟩

/-- The tree follows the register through a grant. -/
theorem tracks_afterGrant (hs : s.Placed front names first)
    (hplain : ∀ text f, s.wrapper.fingerprint text = .ok f → PlainFingerprint f) (g : Grant)
    (h : s.Tracks front dir names first supply w r) :
    s.Tracks front dir names first supply (s.afterGrant w g) (r.grant s supply g) := by
  unfold afterGrant addCollaborators Register.grant
  rw [Attempt.on_bind, Attempt.on_ofExcept]
  cases hmap : g.recipients.mapM s.wrapper.fingerprint with
  | error e => exact h
  | ok fs =>
    have hfs : ∀ f ∈ fs, PlainFingerprint f := by
      intro f hf
      obtain ⟨text, -, htext⟩ := exists_of_mem_mapM hmap hf
      exact hplain text f htext
    dsimp only
    rw [Attempt.on_bind, Attempt.on_ofExcept, KeyFile.requireLatest]
    cases g.keyFile.getLatest? with
    | none => exact h
    | some entry =>
      dsimp only
      rw [Attempt.on_bind, Attempt.on_ofExcept, KeyFile.add_empty]
      exact tracks_addEach hs hfs g.trusted h

theorem tracks_afterGrants (hs : s.Placed front names first)
    (hplain : ∀ text f, s.wrapper.fingerprint text = .ok f → PlainFingerprint f) (gs : List Grant)
    (h : s.Tracks front dir names first supply w r) :
    s.Tracks front dir names first supply (s.afterGrants w gs)
      (gs.foldl (Register.grant s supply) r) := by
  induction gs generalizing w r with
  | nil => exact h
  | cons g gs ih => exact ih (tracks_afterGrant hs hplain g h)

/-! ## The start -/

/-- Nothing lies where a store's directory will be: the path of it goes by `front` to a directory, and
from there by ordinary names of which not even the first is there. -/
structure Fresh (s : Store) (t : Tree) : Prop where
  sound : t.Sound
  vacant : ∃ front dir first rest, s.root.Below front (first :: rest) ∧
    t.walk .use Tree.maxLinks [] front = .ok (.found dir .directory) ∧
    t.find? (dir ++ [first]) = none

/-- What is asked of a way of wrapping: recipients have fingerprints that can be the front of a file
name, and the files' suffix can be the end of one. -/
structure Plain (s : Store) : Prop where
  suffix_plain : '/' ∉ s.wrapper.suffix.toList
  fingerprint_plain : ∀ text f, s.wrapper.fingerprint text = .ok f → PlainFingerprint f

/-- A tree without the store's directory is that of an empty register. -/
theorem Fresh.mirrors (h : s.Fresh t) (hsuffix : '/' ∉ s.wrapper.suffix.toList) :
    ∃ front dir names first, s.Placed front names first ∧
      ∀ n, s.Mirrors front dir names first t { drawn := n } := by
  obtain ⟨hsound, front, dir, first, rest, hroot, hwalk, hvacant⟩ := h
  have habsent : ∀ below, below.head? = some first → t.find? (dir ++ below) = none := by
    intro below hhead
    obtain ⟨rest, rfl⟩ := List.head?_eq_some_iff.mp hhead
    rw [List.append_cons]
    exact hsound.absent_below hvacant rest
  have hnothing : ∀ below node, below.head? = some first → t.find? (dir ++ below) ≠ some node := by
    intro below node hhead hnode
    rw [habsent below hhead] at hnode
    cases hnode
  refine ⟨front, dir, first :: rest, first, ⟨hroot, rfl, hsuffix⟩, fun n => ?_⟩
  constructor
  case site =>
    exact ⟨hsound, Tree.goes_of_walk hwalk, fun below hhead target => hnothing below _ hhead⟩
  case directories => exact fun below hhead hnode => absurd hnode (hnothing below _ hhead)
  case files => exact fun below content mode hhead hnode => absurd hnode (hnothing below _ hhead)
  -- an empty register has no copies
  case filed => exact fun name v f entry hcopy => nomatch hcopy
  case sane => exact fun name v f entry hcopy => nomatch hcopy

/-- After any grants, the tree is that of their register. -/
theorem Fresh.afterGrants {w : World} (h : s.Fresh w.tree) (hplain : s.Plain) (gs : List Grant) :
    ∃ front dir names first, s.Placed front names first ∧
      s.Mirrors front dir names first (s.afterGrants w gs).tree (s.registerOf w gs) := by
  obtain ⟨front, dir, names, first, hs, hstart⟩ := h.mirrors hplain.suffix_plain
  have htracks := tracks_afterGrants (w := w) hs hplain.fingerprint_plain gs
    ⟨rfl, rfl, hstart w.drawn⟩
  exact ⟨front, dir, names, first, hs, htracks.mirrors⟩

end RepoSeal.Store
