import RepoSeal.Proofs.Grants
import RepoSeal.Proofs.KeyCanonical
import RepoSeal.Proofs.Listing

/-!
# RepoSeal — unwrapping from a store

A copy that lies at its place in a tree that mirrors a register is unwrapped to the one version that was
handed out, so it is never taken for misfiled. A reader with several private identities gets the copy of
the first of them that has one (`Mirrors.unwrapKey`), and those of all keys together
(`Mirrors.unwrapAll`). With the list of copies this says what a store is after any grants
(`reads_afterGrants`): just its register.
-/

namespace RepoSeal

/-- The entry of a version of a key that the first of some identities has a copy of. -/
def Register.firstCopy (r : Register) (ids : List String) (name : Option KeyName) (v : UInt32) :
    Option KeyEntry :=
  ids.findSome? fun f => r.copies name v f

namespace Store

/-- The store as somebody with private identities reads it. -/
def readBy (s : Store) (ids : List String) (unwrap : Bytes → String → Except Error Bytes) : Store :=
  { s with wrapper := { s.wrapper with secretFingerprints := .ok ids, unwrap } }

/-- What is asked of a reader: each private identity opens what is wrapped for it. -/
structure Reads (s : Store) (ids : List String) (unwrap : Bytes → String → Except Error Bytes) :
    Prop where
  plain : ∀ f ∈ ids, PlainFingerprint f
  unwrap_wrap : ∀ f ∈ ids, ∀ seed plaintext trusted blob,
    s.wrapper.wrap seed plaintext f trusted = .ok blob → unwrap blob f = .ok plaintext

variable {s : Store} {front names : List String} {dir : Location} {first : String} {t : Tree}
  {r : Register} {name : Option KeyName} {v : UInt32} {f : String} {entry : KeyEntry}
  {ids : List String} {unwrap : Bytes → String → Except Error Bytes}

/-! ## One copy -/

theorem gives_loadLogged (data : Bytes) :
    Attempt.Gives (ExceptT.mk (KeyFile.loadLogged data)) t (KeyFile.decode data) := by
  rintro w rfl
  rw [Attempt.on_mk, KeyFile.loadLogged, KeyFile.decode]
  rcases KeyFile.load (.ofBytes data) with ⟨result, i⟩
  exact ⟨rfl, rfl⟩

theorem misfiled_single (p : Path) (hversion : entry.version = v) :
    misfiled p (name.map KeyName.text) v (.single name entry) = none := by
  have hget : (KeyFile.single name entry).get? v = some entry :=
    KeyFile.get?_eq_some.mpr ⟨List.mem_singleton_self entry, hversion⟩
  rw [misfiled, hget, Option.isNone_some, if_neg Bool.false_ne_true, KeyFile.name_single, if_neg]
  exact fun hne => hne rfl

namespace Mirrors

theorem unwrapBlob (h : s.Mirrors front dir names first t r) (hs : s.Placed front names first)
    (hreads : s.Reads ids unwrap) (hf : f ∈ ids) (hcopy : r.copies name v f = some entry) :
    ((s.readBy ids unwrap).unwrapBlob (s.blobPath (name.map KeyName.text) v f) f
      (name.map KeyName.text) v).Gives t (.ok (.single name entry)) := by
  obtain ⟨content, mode, seed, trusted, hnode, hwrap⟩ := h.filed name v f entry hcopy
  obtain ⟨hversion, hplain, hfits⟩ := h.sane name v f entry hcopy
  have hcontent := h.site.contentsAt_of_file (hs.blobPath_below name v (hs.namesFile hplain))
    (hs.head_place name v f) hfits hnode
  have hopened : unwrap content f = .ok (KeyFile.single name entry).encode :=
    hreads.unwrap_wrap f hf seed _ trusted content hwrap
  -- the file is read, opened, loaded and found in its place
  unfold Store.unwrapBlob
  refine (Attempt.gives_contents hcontent).bind ?_
  have hunwrapped : (Attempt.ofExcept ((s.readBy ids unwrap).wrapper.unwrap content f)).Gives t
      (.ok (KeyFile.single name entry).encode) := hopened ▸ Attempt.gives_ofExcept _
  refine hunwrapped.bind ?_
  have hloaded := gives_loadLogged (t := t) (KeyFile.single name entry).encode
  rw [KeyFile.decode_encode] at hloaded
  refine hloaded.bind ?_
  rw [misfiled_single _ hversion]
  exact Attempt.gives_pure _

/-! ## One key -/

/-- The first identity with a copy gets it open. -/
theorem unwrapWith (h : s.Mirrors front dir names first t r) (hs : s.Placed front names first)
    (hreads : s.Reads ids unwrap) (name : Option KeyName) (v : UInt32) (failure : Error)
    {fs : List String} (hfs : ∀ f ∈ fs, f ∈ ids) :
    ((s.readBy ids unwrap).unwrapWith (name.map KeyName.text) v failure fs).Gives t
      (match r.firstCopy fs name v with
        | some entry => .ok (.single name entry)
        | none => .error failure) := by
  induction fs with
  | nil => exact Attempt.gives_fail failure
  | cons f fs ih =>
    obtain ⟨hf, hfs⟩ := List.forall_mem_cons.mp hfs
    have hthere := h.presence_blobPath hs name v (hreads.plain f hf)
    unfold Store.unwrapWith
    refine (Attempt.gives_exists _).bind ?_
    rw [Register.firstCopy, List.findSome?_cons]
    cases hcopy : r.copies name v f with
    | none =>
      -- without a copy the next identity is asked, and the failure stays the same
      rw [hcopy] at hthere
      have habsent : decide (t.presence (s.blobPath (name.map KeyName.text) v f) ≠ .absent) = false :=
        decide_eq_false fun hpresent => Bool.false_ne_true (hthere.mp hpresent)
      show Attempt.Gives (if decide (t.presence (s.blobPath (name.map KeyName.text) v f) ≠ .absent)
        then _ else _) t _
      rw [habsent, if_neg Bool.false_ne_true]
      exact ih hfs
    | some entry =>
      -- a copy that is there is opened, so no further identity is asked
      rw [hcopy] at hthere
      have hpresent : decide (t.presence (s.blobPath (name.map KeyName.text) v f) ≠ .absent) = true :=
        decide_eq_true (hthere.mpr rfl)
      show Attempt.Gives (if decide (t.presence (s.blobPath (name.map KeyName.text) v f) ≠ .absent)
        then _ else _) t _
      rw [hpresent, if_pos rfl]
      refine (h.unwrapBlob hs hreads hf hcopy).outcome.bind ?_
      exact (Attempt.gives_log _).bind (Attempt.gives_pure _)

theorem unwrapKey (h : s.Mirrors front dir names first t r) (hs : s.Placed front names first)
    (hreads : s.Reads ids unwrap) (name : Option KeyName) (v : UInt32) :
    ((s.readBy ids unwrap).unwrapKey (name.map KeyName.text) v).Gives t
      (match r.firstCopy ids name v with
        | some entry => .ok (.single name entry)
        | none => .error (.keyNotFound (.noCopy (shownKeyName name) v))) := by
  unfold Store.unwrapKey
  rw [getD_defaultKeyName]
  exact (Attempt.gives_ofExcept _).bind
    (h.unwrapWith hs hreads name v _ fun _ hf => hf)

/-! ## All keys -/

theorem unwrapEach (h : s.Mirrors front dir names first t r) (hs : s.Placed front names first)
    (hreads : s.Reads ids unwrap) (v : UInt32) (keys : List (Option KeyName)) :
    ((s.readBy ids unwrap).unwrapEach v keys).Gives t (.ok (keys.filterMap fun name =>
      (r.firstCopy ids name v).map (KeyFile.single name))) := by
  induction keys with
  | nil => exact Attempt.gives_pure []
  | cons name keys ih =>
    have hkey := h.unwrapKey hs hreads name v
    unfold Store.unwrapEach
    refine hkey.outcome.bind ?_
    rw [List.filterMap_cons]
    cases r.firstCopy ids name v with
    | none => exact (Attempt.gives_log _).bind ih
    | some entry => exact ih.bind (Attempt.gives_pure _)

/-- A version of all keys: those of which an identity has a copy, in the order of keys. -/
theorem unwrapAll (h : s.Mirrors front dir names first t r) (hs : s.Placed front names first)
    (hreads : s.Reads ids unwrap) (v : UInt32) :
    ∃ kfs, ((s.readBy ids unwrap).unwrapAll v).Gives t (.ok kfs) ∧
      kfs.Pairwise (fun a b => KeyLt a.name b.name) ∧
      ∀ kf, kf ∈ kfs ↔ ∃ name entry, r.firstCopy ids name v = some entry ∧ kf = .single name entry := by
  obtain ⟨keys, hkeys, hsorted, hkey⟩ := h.keyNames hs
  refine ⟨keys.filterMap fun name => (r.firstCopy ids name v).map (KeyFile.single name), ?_, ?_,
    fun kf => ?_⟩
  · have hkeys' : (s.readBy ids unwrap).keyNames.Gives t (.ok keys) := hkeys
    exact hkeys'.bind (h.unwrapEach hs hreads v keys)
  · rw [List.pairwise_filterMap]
    refine hsorted.imp fun {name name'} hlt kf hkf kf' hkf' => ?_
    obtain ⟨entry, -, rfl⟩ := Option.map_eq_some_iff.mp hkf
    obtain ⟨entry', -, rfl⟩ := Option.map_eq_some_iff.mp hkf'
    exact hlt
  · rw [List.mem_filterMap]
    constructor
    · rintro ⟨name, -, hkf⟩
      obtain ⟨entry, hentry, rfl⟩ := Option.map_eq_some_iff.mp hkf
      exact ⟨name, entry, hentry, rfl⟩
    · -- a key with a copy has a directory, so it is among the keys
      rintro ⟨name, entry, hentry, rfl⟩
      obtain ⟨f, -, hcopy⟩ := List.exists_of_findSome?_eq_some hentry
      have hversion := h.directory_of_copy (Option.isSome_iff_exists.mpr ⟨entry, hcopy⟩)
      rw [versionNames, List.append_cons names, ← List.append_assoc dir] at hversion
      have hname : name ∈ keys := (hkey name).mpr (h.site.sound.held _ _ _ hversion)
      exact ⟨name, hname, by rw [hentry]; rfl⟩

end Mirrors

/-! ## After any grants -/

/-- A store that was not there before is just the register of its grants: listing tells its copies, and a
reader gets of each key the copy of the first identity that has one. -/
theorem reads_afterGrants {w : World} (hfresh : s.Fresh w.tree) (hplain : s.Plain)
    (gs : List Grant) :
    (∃ rows, s.list.Gives (s.afterGrants w gs).tree (.ok rows) ∧
      rows.Pairwise WrappedKey.Before ∧ ∀ row, row ∈ rows ↔ (s.registerOf w gs).HasRow s row) ∧
    ∀ ids unwrap, s.Reads ids unwrap → ∀ v,
      (∀ name, ((s.readBy ids unwrap).unwrapKey (name.map KeyName.text) v).Gives
        (s.afterGrants w gs).tree
        (match (s.registerOf w gs).firstCopy ids name v with
          | some entry => .ok (.single name entry)
          | none => .error (.keyNotFound (.noCopy (shownKeyName name) v)))) ∧
      ∃ kfs, ((s.readBy ids unwrap).unwrapAll v).Gives (s.afterGrants w gs).tree (.ok kfs) ∧
        kfs.Pairwise (fun a b => KeyLt a.name b.name) ∧
        ∀ kf, kf ∈ kfs ↔ ∃ name entry,
          (s.registerOf w gs).firstCopy ids name v = some entry ∧ kf = .single name entry := by
  obtain ⟨front, dir, names, first, hs, hmirrors⟩ := hfresh.afterGrants hplain gs
  refine ⟨hmirrors.list hs, fun ids unwrap hreads v => ⟨fun name => ?_, ?_⟩⟩
  · exact hmirrors.unwrapKey hs hreads name v
  · exact hmirrors.unwrapAll hs hreads v

/-! ## A wrapper that hides nothing -/

/-- A way of wrapping that only notes for whom a copy is, and makes none for strangers. -/
def openWrapper : Wrapper where
  suffix := "open"
  fingerprint text :=
    if PlainFingerprint text then .ok text else .error (.external "open" text)
  wrap _ plaintext f trusted :=
    if trusted then .ok (utf8 f ++ plaintext) else .error (.external "open" f)
  secretFingerprints := .ok []
  unwrap blob f :=
    if (utf8 f).isPrefixOf blob then .ok (blob.drop (utf8 f).length)
    else .error (.external "open" f)

def openStore : Store := ⟨⟨".git-crypt"⟩, openWrapper⟩

/-- The first version of a key, made of one byte over and over. -/
def plainEntry (b : UInt8) : KeyEntry := .ofMaterial 0 (.replicate 96 b)

theorem openStore_fresh : openStore.Fresh {} := by
  refine ⟨Tree.sound_empty, [], [], ".git-crypt", ["keys"], ⟨?_, ?_, ?_, ?_⟩, ?_, rfl⟩
  · decide
  · decide
  · decide
  · decide
  · rw [Tree.walk]

theorem openStore_fingerprint (hf : PlainFingerprint f) : openStore.wrapper.fingerprint f = .ok f :=
  if_pos hf

theorem openStore_wrap (seed : Octets openStore.wrapper.seedLength) (plaintext : Bytes) (f : String) :
    openStore.wrapper.wrap seed plaintext f true = .ok (utf8 f ++ plaintext) := rfl

theorem openStore_plain : openStore.Plain where
  suffix_plain := by decide
  fingerprint_plain := by
    intro text f h
    change (if PlainFingerprint text then Except.ok text else .error _) = .ok f at h
    split at h
    · rename_i hplain
      cases h
      exact hplain
    · cases h

theorem openStore_reads {ids : List String} (hids : ∀ f ∈ ids, PlainFingerprint f) :
    openStore.Reads ids openWrapper.unwrap := by
  refine ⟨hids, fun f hf seed plaintext trusted blob h => ?_⟩
  change (if trusted then Except.ok (utf8 f ++ plaintext) else .error _) = .ok blob at h
  split at h
  · cases h
    show (if (utf8 f).isPrefixOf (utf8 f ++ plaintext) then _ else _) = _
    rw [if_pos (List.isPrefixOf_iff_prefix.mpr (List.prefix_append _ _)), List.drop_left]
  · cases h

/-- Two keys without a name, the second one handed out when one recipient has the first. -/
def rivalGrants : List Grant :=
  [⟨.single none (plainEntry 7), ["ann"], true⟩, ⟨.single none (plainEntry 9), ["ann", "bo"], true⟩]

/-- Who came first keeps the first key. -/
theorem reads_afterGrants_rival :
    (∃ rows, openStore.list.Gives (openStore.afterGrants {} rivalGrants).tree (.ok rows) ∧
      ⟨none, 0, "bo", ⟨".git-crypt/keys/default/0/bo.open"⟩⟩ ∈ rows) ∧
    ((openStore.readBy ["cy", "ann", "bo"] openWrapper.unwrap).unwrapKey none 0).Gives
      (openStore.afterGrants {} rivalGrants).tree (.ok (.single none (plainEntry 7))) ∧
    ((openStore.readBy ["cy"] openWrapper.unwrap).unwrapKey none 0).Gives
      (openStore.afterGrants {} rivalGrants).tree
      (.error (.keyNotFound (.noCopy "default" 0))) := by
  obtain ⟨⟨rows, hlist, -, hmem⟩, hread⟩ :=
    reads_afterGrants (w := {}) openStore_fresh openStore_plain rivalGrants
  refine ⟨⟨rows, hlist, (hmem _).mpr ⟨?_, ?_⟩⟩, ?_, ?_⟩
  · decide +kernel
  · decide +kernel
  · have hids : openStore.Reads ["cy", "ann", "bo"] openWrapper.unwrap := openStore_reads (by decide)
    have hfirst : (openStore.registerOf {} rivalGrants).firstCopy ["cy", "ann", "bo"] none 0 =
        some (plainEntry 7) := by decide +kernel
    have hkey := (hread _ _ hids 0).1 none
    rw [hfirst] at hkey
    exact hkey
  · have hids : openStore.Reads ["cy"] openWrapper.unwrap := openStore_reads (by decide)
    have hfirst : (openStore.registerOf {} rivalGrants).firstCopy ["cy"] none 0 = none := by
      decide +kernel
    have hkey := (hread _ _ hids 0).1 none
    rw [hfirst] at hkey
    exact hkey

/-- A fingerprint that is plain, but longer than a name can be. -/
def longFingerprint : String := .ofList (List.replicate 300 'a')

def longGrant : Grant := ⟨.single none (plainEntry 7), [longFingerprint], true⟩

theorem longFingerprint_plain : PlainFingerprint longFingerprint := by
  have hchars : longFingerprint.toList = List.replicate 300 'a' := String.toList_ofList
  have hslash : '/' ∉ longFingerprint.toList := by
    rw [hchars]
    exact fun hmem => absurd (List.eq_of_mem_replicate hmem) (by decide)
  have hdot : longFingerprint.toList.head? ≠ some '.' := by
    rw [hchars, List.head?_replicate]
    decide
  refine ⟨fun hempty => ?_, hslash, hdot⟩
  rw [hempty] at hchars
  cases hchars

theorem length_longFingerprint : longFingerprint.utf8ByteSize = 300 := by
  have hlen : ∀ n, String.utf8Len (List.replicate n 'a') = n := by
    intro n
    induction n with
    | zero => rfl
    | succ n ih =>
      rw [List.replicate_succ, String.utf8Len_cons, ih]
      rfl
  exact Eq.trans (String.utf8ByteSize_ofList _) (hlen 300)

/-- A recipient whose fingerprint is too long for a file name gets no copy, though one could be made and
opened. -/
theorem list_of_longFingerprint :
    (openStore.wrapper.fingerprint longFingerprint = .ok longFingerprint ∧
      PlainFingerprint longFingerprint ∧
      ∀ seed plaintext, ∃ blob,
        openStore.wrapper.wrap seed plaintext longFingerprint true = .ok blob ∧
          openStore.wrapper.unwrap blob longFingerprint = .ok plaintext) ∧
    openStore.Fresh {} ∧
    ∃ rows, openStore.list.Gives (openStore.afterGrants {} [longGrant]).tree (.ok rows) ∧
      ∀ row ∈ rows, row.fingerprint ≠ longFingerprint := by
  have hplain := longFingerprint_plain
  have hlong : Tree.maxNameLength < (openStore.fileName longFingerprint).utf8ByteSize := by
    rw [fileName, String.utf8ByteSize_append, String.utf8ByteSize_append, length_longFingerprint,
      Tree.maxNameLength]
    omega
  have hreads : openStore.Reads [longFingerprint] openWrapper.unwrap :=
    openStore_reads (List.forall_mem_singleton.mpr hplain)
  refine ⟨⟨openStore_fingerprint hplain, hplain, fun seed plaintext =>
    ⟨_, openStore_wrap seed plaintext longFingerprint, ?_⟩⟩, openStore_fresh, ?_⟩
  · exact hreads.unwrap_wrap _ (List.mem_singleton_self _) seed plaintext true _
      (openStore_wrap seed plaintext longFingerprint)
  · obtain ⟨front, dir, names, first, hs, hmirrors⟩ :=
      Fresh.afterGrants (w := {}) openStore_fresh openStore_plain [longGrant]
    obtain ⟨rows, hrows, -, hmem⟩ := hmirrors.list hs
    refine ⟨rows, hrows, fun row hrow hsame => ?_⟩
    obtain ⟨entry, hentry⟩ := Option.isSome_iff_exists.mp ((hmem row).mp hrow).1
    obtain ⟨-, hf, hfits⟩ := hmirrors.sane _ _ _ _ hentry
    exact hs.not_fits_of_long row.name row.version hf (hsame ▸ hlong) hfits

end Store

end RepoSeal
