import RepoSeal.Proofs.ReadOrder

/-!
# RepoSeal — the first identity that opens a copy

A reader with several private identities tries their copies of a key in order. A copy opens
(`CopyOpens`), or it fails in one of five ways, each with an error of its own (`CopyFails`). Unwrapping
gives what the first copy that opens holds; a failure before it or behind it does not show. If no copy
opens, the error is that of the last one that is there (`unwrapKey_outcome`). All of this is said for
every tree, so for copies that were damaged, moved or exchanged too.
-/

namespace RepoSeal.Store

section

variable (s : Store) (t : Tree) (name : Option KeyName) (v : UInt32) (f : String)

/-- Whether anything lies at the place of a copy. -/
abbrev CopyThere : Prop := t.presence (s.blobPath (name.map KeyName.text) v f) ≠ .absent

/-- What the copy of an identity holds: bytes that the identity opens. -/
structure CopyHolds (plaintext : Bytes) : Prop where
  opened : ∃ blob, t.contentsAt (s.blobPath (name.map KeyName.text) v f) = .ok blob ∧
    s.wrapper.unwrap blob f = .ok plaintext

/-- A copy that is of use: it is there, it can be read and opened, and it holds a key file with the
name and the version of its place. -/
structure CopyOpens (kf : KeyFile) : Prop where
  there : s.CopyThere t name v f
  holds : ∃ plaintext, s.CopyHolds t name v f plaintext ∧ KeyFile.decode plaintext = .ok kf
  version : ∃ e ∈ kf.entries, e.version = v
  name_eq : kf.name = name

/-- What is wrong with a copy that is there but of no use. -/
inductive CopyFails : Error → Prop
  | unreadable {fault : Fault}
      (h : t.contentsAt (s.blobPath (name.map KeyName.text) v f) = .error fault) :
      CopyFails (.io fault)
  | locked {blob : Bytes} {e : Error}
      (hread : t.contentsAt (s.blobPath (name.map KeyName.text) v f) = .ok blob)
      (h : s.wrapper.unwrap blob f = .error e) : CopyFails e
  | broken {plaintext : Bytes} {e : Error} (hholds : s.CopyHolds t name v f plaintext)
      (h : KeyFile.decode plaintext = .error e) : CopyFails e
  | versionAbsent {plaintext : Bytes} {kf : KeyFile} (hholds : s.CopyHolds t name v f plaintext)
      (hload : KeyFile.decode plaintext = .ok kf) (h : ∀ e ∈ kf.entries, e.version ≠ v) :
      CopyFails (.malformed (.versionAbsent (s.blobPath (name.map KeyName.text) v f) v))
  | nameMismatch {plaintext : Bytes} {kf : KeyFile} (hholds : s.CopyHolds t name v f plaintext)
      (hload : KeyFile.decode plaintext = .ok kf) (hversion : ∃ e ∈ kf.entries, e.version = v)
      (h : kf.name ≠ name) :
      CopyFails (.malformed (.nameMismatch (s.blobPath (name.map KeyName.text) v f)
        (kf.name.map KeyName.text)))

end

variable {s : Store} {t : Tree} {name : Option KeyName} {v : UInt32} {f : String} {kf : KeyFile}
  {e : Error}

/-! ## One copy -/

theorem map_text_injective {a b : Option KeyName} (h : a.map KeyName.text = b.map KeyName.text) :
    a = b := by
  apply shownKeyName_injective
  rw [← getD_defaultKeyName, ← getD_defaultKeyName, h]

theorem not_isNone_get? (h : ∃ e ∈ kf.entries, e.version = v) : ¬ (kf.get? v).isNone = true := by
  obtain ⟨e, he, hv⟩ := h
  rw [Option.isNone_iff_eq_none, KeyFile.get?_eq_none]
  exact fun hall => hall e he hv

/-- What a copy holds, up to whether it belongs to its place. -/
theorem gives_unwrapBlob {plaintext : Bytes} (h : s.CopyHolds t name v f plaintext)
    (hload : KeyFile.decode plaintext = .ok kf) :
    (s.unwrapBlob (s.blobPath (name.map KeyName.text) v f) f (name.map KeyName.text) v).Gives t
      (match misfiled (s.blobPath (name.map KeyName.text) v f) (name.map KeyName.text) v kf with
        | some cause => .error (.malformed cause)
        | none => .ok kf) := by
  obtain ⟨blob, hread, hopen⟩ := h.opened
  unfold Store.unwrapBlob
  refine (Attempt.gives_contents hread).bind ?_
  rw [hopen]
  refine (Attempt.gives_ofExcept _).bind ?_
  have hloaded := gives_loadLogged (t := t) plaintext
  rw [hload] at hloaded
  refine hloaded.bind ?_
  cases misfiled (s.blobPath (name.map KeyName.text) v f) (name.map KeyName.text) v kf with
  | some cause => exact Attempt.gives_fail _
  | none => exact Attempt.gives_pure _

theorem CopyOpens.gives (h : s.CopyOpens t name v f kf) :
    (s.unwrapBlob (s.blobPath (name.map KeyName.text) v f) f (name.map KeyName.text) v).Gives t
      (.ok kf) := by
  obtain ⟨plaintext, hholds, hload⟩ := h.holds
  have hgives := gives_unwrapBlob hholds hload
  rw [misfiled, if_neg (not_isNone_get? h.version), if_neg (not_not.mpr (congrArg _ h.name_eq))]
    at hgives
  exact hgives

theorem CopyFails.gives (h : s.CopyFails t name v f e) :
    (s.unwrapBlob (s.blobPath (name.map KeyName.text) v f) f (name.map KeyName.text) v).Gives t
      (.error e) := by
  cases h with
  | unreadable h => exact (Attempt.gives_contents_error h).bind_error
  | locked hread h =>
    refine (Attempt.gives_contents hread).bind ?_
    rw [h]
    exact (Attempt.gives_ofExcept _).bind_error
  | @broken plaintext _ hholds h =>
    obtain ⟨blob, hread, hopen⟩ := hholds.opened
    refine (Attempt.gives_contents hread).bind ?_
    rw [hopen]
    refine (Attempt.gives_ofExcept _).bind ?_
    have hloaded := gives_loadLogged (t := t) plaintext
    rw [h] at hloaded
    exact hloaded.bind_error
  | versionAbsent hholds hload h =>
    have hgives := gives_unwrapBlob hholds hload
    rw [misfiled, if_pos (Option.isNone_iff_eq_none.mpr (KeyFile.get?_eq_none.mpr h))] at hgives
    exact hgives
  | nameMismatch hholds hload hversion h =>
    have hgives := gives_unwrapBlob hholds hload
    rw [misfiled, if_neg (not_isNone_get? hversion),
      if_pos fun heq => h (map_text_injective heq)] at hgives
    exact hgives

/-- A copy that is there opens, or something is wrong with it. -/
theorem copy_cases (h : s.CopyThere t name v f) :
    (∃ kf, s.CopyOpens t name v f kf) ∨ ∃ e, s.CopyFails t name v f e := by
  cases hread : t.contentsAt (s.blobPath (name.map KeyName.text) v f) with
  | error fault => exact .inr ⟨_, .unreadable hread⟩
  | ok blob =>
    cases hopen : s.wrapper.unwrap blob f with
    | error e => exact .inr ⟨e, .locked hread hopen⟩
    | ok plaintext =>
      have hholds : s.CopyHolds t name v f plaintext := ⟨blob, hread, hopen⟩
      cases hload : KeyFile.decode plaintext with
      | error e => exact .inr ⟨e, .broken hholds hload⟩
      | ok kf =>
        by_cases hversion : ∃ e ∈ kf.entries, e.version = v
        · by_cases hname : kf.name = name
          · exact .inl ⟨kf, h, ⟨plaintext, hholds, hload⟩, hversion, hname⟩
          · exact .inr ⟨_, .nameMismatch hholds hload hversion hname⟩
        · exact .inr ⟨_, .versionAbsent hholds hload fun e he hv => hversion ⟨e, he, hv⟩⟩

/-! ## One identity after the other -/

section

variable {failure : Error} {fs : List String} {r : Except Error KeyFile}

theorem unwrapWith_of_absent (h : ¬ s.CopyThere t name v f)
    (hrest : (s.unwrapWith (name.map KeyName.text) v failure fs).Gives t r) :
    (s.unwrapWith (name.map KeyName.text) v failure (f :: fs)).Gives t r := by
  unfold Store.unwrapWith
  refine (Attempt.gives_exists _).bind ?_
  rw [if_neg fun hpresent => h (of_decide_eq_true hpresent)]
  exact hrest

theorem unwrapWith_of_opens (h : s.CopyOpens t name v f kf) (failure : Error) (fs : List String) :
    (s.unwrapWith (name.map KeyName.text) v failure (f :: fs)).Gives t (.ok kf) := by
  unfold Store.unwrapWith
  refine (Attempt.gives_exists _).bind ?_
  rw [if_pos (decide_eq_true h.there)]
  refine h.gives.outcome.bind ?_
  exact (Attempt.gives_log _).bind (Attempt.gives_pure _)

theorem unwrapWith_of_fails (hthere : s.CopyThere t name v f) (h : s.CopyFails t name v f e)
    (hrest : (s.unwrapWith (name.map KeyName.text) v e fs).Gives t r) :
    (s.unwrapWith (name.map KeyName.text) v failure (f :: fs)).Gives t r := by
  unfold Store.unwrapWith
  refine (Attempt.gives_exists _).bind ?_
  rw [if_pos (decide_eq_true hthere)]
  refine h.gives.outcome.bind ?_
  exact (Attempt.gives_log _).bind hrest

/-- Identities whose copies do not open only leave an error behind. -/
theorem unwrapWith_append (front : List String)
    (hfront : ∀ g ∈ front, ∀ kf, ¬ s.CopyOpens t name v g kf) (failure : Error) :
    ∃ e, ∀ back r, (s.unwrapWith (name.map KeyName.text) v e back).Gives t r →
      (s.unwrapWith (name.map KeyName.text) v failure (front ++ back)).Gives t r := by
  induction front generalizing failure with
  | nil => exact ⟨failure, fun back r h => h⟩
  | cons g front ih =>
    obtain ⟨hg, hfront⟩ := List.forall_mem_cons.mp hfront
    by_cases hthere : s.CopyThere t name v g
    · obtain ⟨kf, hopens⟩ | ⟨e, hfails⟩ := copy_cases hthere
      · exact absurd hopens (hg kf)
      · obtain ⟨e', h⟩ := ih hfront e
        exact ⟨e', fun back r hback => unwrapWith_of_fails hthere hfails (h back r hback)⟩
    · obtain ⟨e', h⟩ := ih hfront failure
      exact ⟨e', fun back r hback => unwrapWith_of_absent hthere (h back r hback)⟩

/-- Identities without a copy leave the error as it is. -/
theorem unwrapWith_of_noneThere (h : ∀ g ∈ fs, ¬ s.CopyThere t name v g) (failure : Error) :
    (s.unwrapWith (name.map KeyName.text) v failure fs).Gives t (.error failure) := by
  induction fs with
  | nil => exact Attempt.gives_fail failure
  | cons g fs ih =>
    obtain ⟨hg, hfs⟩ := List.forall_mem_cons.mp h
    exact unwrapWith_of_absent hg (ih hfs)

/-- Searching comes to an end, and what it gives is held by a copy that opens. -/
theorem exists_unwrapWith (s : Store) (t : Tree) (name : Option KeyName) (v : UInt32)
    (failure : Error) (fs : List String) :
    ∃ r, (s.unwrapWith (name.map KeyName.text) v failure fs).Gives t r ∧
      ∀ kf, r = .ok kf → ∃ f ∈ fs, s.CopyOpens t name v f kf := by
  induction fs generalizing failure with
  | nil => exact ⟨.error failure, Attempt.gives_fail failure, fun kf h => (by cases h)⟩
  | cons f fs ih =>
    by_cases hthere : s.CopyThere t name v f
    · obtain ⟨kf, hopens⟩ | ⟨e, hfails⟩ := copy_cases hthere
      · refine ⟨.ok kf, unwrapWith_of_opens hopens failure fs, fun kf' h => ?_⟩
        cases h
        exact ⟨f, List.mem_cons_self, hopens⟩
      · obtain ⟨r, hr, hok⟩ := ih e
        refine ⟨r, unwrapWith_of_fails hthere hfails hr, fun kf h => ?_⟩
        obtain ⟨g, hg, hopens⟩ := hok kf h
        exact ⟨g, List.mem_cons_of_mem f hg, hopens⟩
    · obtain ⟨r, hr, hok⟩ := ih failure
      refine ⟨r, unwrapWith_of_absent hthere hr, fun kf h => ?_⟩
      obtain ⟨g, hg, hopens⟩ := hok kf h
      exact ⟨g, List.mem_cons_of_mem f hg, hopens⟩

end

theorem unwrapKey_eq {fs : List String} (hfs : s.wrapper.secretFingerprints = .ok fs)
    (name : Option KeyName) (v : UInt32) :
    s.unwrapKey (name.map KeyName.text) v =
      s.unwrapWith (name.map KeyName.text) v (.keyNotFound (.noCopy (shownKeyName name) v)) fs := by
  unfold Store.unwrapKey
  rw [hfs, getD_defaultKeyName]
  rfl

/-- **What unwrapping a key comes to.** It gives what the first copy that opens holds. If none opens, it
fails with the error of the last copy that is there, and if none is there, the key is not found. What it
gives has the name and the version that were asked for, and the tree stays as it is. -/
theorem unwrapKey_outcome (s : Store) (t : Tree) {fs : List String}
    (hfs : s.wrapper.secretFingerprints = .ok fs) (name : Option KeyName) (v : UInt32) :
    (∀ front f back kf, fs = front ++ f :: back →
      (∀ g ∈ front, ∀ kf', ¬ s.CopyOpens t name v g kf') → s.CopyOpens t name v f kf →
      (s.unwrapKey (name.map KeyName.text) v).Gives t (.ok kf)) ∧
    ((∀ g ∈ fs, ∀ kf, ¬ s.CopyOpens t name v g kf) →
      (∀ front f back, fs = front ++ f :: back → s.CopyThere t name v f →
        (∀ g ∈ back, ¬ s.CopyThere t name v g) →
        ∃ e, s.CopyFails t name v f e ∧
          (s.unwrapKey (name.map KeyName.text) v).Gives t (.error e)) ∧
      ((∀ g ∈ fs, ¬ s.CopyThere t name v g) →
        (s.unwrapKey (name.map KeyName.text) v).Gives t
          (.error (.keyNotFound (.noCopy (shownKeyName name) v))))) ∧
    ∃ r, (s.unwrapKey (name.map KeyName.text) v).Gives t r ∧
      ∀ kf, r = .ok kf → kf.name = name ∧ ∃ e ∈ kf.entries, e.version = v := by
  rw [unwrapKey_eq hfs]
  refine ⟨fun front f back kf hsplit hfront hopens => ?_, fun hnone => ⟨fun front f back hsplit
    hthere hback => ?_, fun hall => unwrapWith_of_noneThere hall _⟩, ?_⟩
  · obtain ⟨e, h⟩ := unwrapWith_append front hfront (.keyNotFound (.noCopy (shownKeyName name) v))
    rw [hsplit]
    exact h _ _ (unwrapWith_of_opens hopens e back)
  · rw [hsplit] at hnone ⊢
    obtain ⟨hfront, hf⟩ := List.forall_mem_append.mp hnone
    obtain ⟨e', h⟩ := unwrapWith_append front hfront (.keyNotFound (.noCopy (shownKeyName name) v))
    obtain ⟨kf, hopens⟩ | ⟨e, hfails⟩ := copy_cases hthere
    · exact absurd hopens (hf f List.mem_cons_self kf)
    · exact ⟨e, hfails, h _ _ (unwrapWith_of_fails hthere hfails (unwrapWith_of_noneThere hback e))⟩
  · obtain ⟨r, hr, hok⟩ :=
      exists_unwrapWith s t name v (.keyNotFound (.noCopy (shownKeyName name) v)) fs
    refine ⟨r, hr, fun kf hkf => ?_⟩
    obtain ⟨f, -, hopens⟩ := hok kf hkf
    exact ⟨hopens.name_eq, hopens.version⟩

/-! ## A store with one version of one key -/

/-- The default key, with these entries in the directory of its first version. -/
def shelf (entries : List (String × Node)) : Tree where
  nodes := [([".git-crypt"], .directory), ([".git-crypt", "keys"], .directory),
      ([".git-crypt", "keys", "default"], .directory),
      ([".git-crypt", "keys", "default", "0"], .directory)] ++
    entries.map fun (name, node) => ([".git-crypt", "keys", "default", "0", name], node)

theorem site_shelf {entries : List (String × Node)} (hsound : (shelf entries).Sound)
    (hlinks : ∀ e ∈ (shelf entries).nodes, Tree.kindOf e.2 ≠ .link) :
    (shelf entries).Site [] [] ".git-crypt" where
  sound := hsound
  leads := ⟨_, .done _ _⟩
  link_free names _ := Tree.not_link_of_nodes hlinks ([] ++ names)

/-- What lies on a shelf. -/
theorem lookup_shelf {entries : List (String × Node)} {node : Node}
    (hsite : (shelf entries).Site [] [] ".git-crypt") (hf : PlainFingerprint f)
    (hfits : (openStore.blobPath none 0 f).Fits)
    (h : (shelf entries).find? [".git-crypt", "keys", "default", "0", openStore.fileName f] =
      some node) :
    (shelf entries).lookup .use (openStore.blobPath none 0 f) =
      .ok (.found [".git-crypt", "keys", "default", "0", openStore.fileName f] node) := by
  have hdir : (openStore.keyDir none / toString (0 : UInt32)).Below []
      [".git-crypt", "keys", "default", "0"] :=
    ⟨by decide +kernel, by decide +kernel, by decide +kernel, by decide⟩
  obtain ⟨hpart, hup⟩ := isPart_fileName openStore_plain.suffix_plain hf
  exact hsite.lookup_of_some (hdir.join hpart hup) rfl hfits h

/-- A broken copy for one recipient and one that opens for another. -/
def halfBroken : Tree :=
  shelf [("ann.open", .file [] Tree.privateMode),
    ("bo.open",
      .file (utf8 "bo" ++ (KeyFile.single none (plainEntry 7)).encode) Tree.privateMode)]

theorem site_halfBroken : halfBroken.Site [] [] ".git-crypt" :=
  site_shelf (Tree.sound_of_nodes (by decide) (by decide)) (by decide)

theorem copyOpens_halfBroken (ids : List String) :
    (openStore.readBy ids openWrapper.unwrap).CopyOpens halfBroken none 0 "bo"
      (.single none (plainEntry 7)) := by
  have hlookup := lookup_shelf (f := "bo") site_halfBroken (by decide) (by decide +kernel) rfl
  have hthere : halfBroken.presence (openStore.blobPath none 0 "bo") ≠ .absent := by
    rw [Tree.presence, halfBroken, hlookup]
    exact Presence.noConfusion
  have hcontent : halfBroken.contentsAt (openStore.blobPath none 0 "bo") =
      .ok (utf8 "bo" ++ (KeyFile.single none (plainEntry 7)).encode) := by
    rw [Tree.contentsAt, halfBroken, hlookup]
  have hreads : openStore.Reads ["bo"] openWrapper.unwrap := openStore_reads (by decide)
  have hopen : openWrapper.unwrap (utf8 "bo" ++ (KeyFile.single none (plainEntry 7)).encode) "bo" =
      .ok (KeyFile.single none (plainEntry 7)).encode :=
    hreads.unwrap_wrap "bo" (List.mem_singleton_self _) (.replicate 0 0) _ true _ rfl
  exact ⟨hthere, ⟨_, ⟨_, hcontent, hopen⟩, KeyFile.decode_encode _⟩,
    ⟨_, List.mem_singleton_self _, rfl⟩, rfl⟩

theorem unwrapKey_outcome_halfBroken :
    ((openStore.readBy ["ann", "bo"] openWrapper.unwrap).unwrapKey none 0).Gives halfBroken
      (.ok (.single none (plainEntry 7))) := by
  obtain ⟨hfirst, -⟩ :=
    unwrapKey_outcome (openStore.readBy ["ann", "bo"] openWrapper.unwrap) halfBroken rfl none 0
  refine hfirst ["ann"] "bo" [] _ rfl (List.forall_mem_singleton.mpr fun kf hopens => ?_)
    (copyOpens_halfBroken _)
  -- the broken copy is not marked with its recipient, so it is not opened
  obtain ⟨plaintext, hholds, -⟩ := hopens.holds
  obtain ⟨blob, hread, hopen⟩ := hholds.opened
  have hlookup := lookup_shelf (f := "ann") site_halfBroken (by decide) (by decide +kernel) rfl
  have hcontent : halfBroken.contentsAt (openStore.blobPath none 0 "ann") = .ok [] := by
    rw [Tree.contentsAt, halfBroken, hlookup]
  cases hcontent.symm.trans hread
  cases hopen

end RepoSeal.Store
