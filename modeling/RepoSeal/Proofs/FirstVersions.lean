import RepoSeal.Command.Session
import RepoSeal.Proofs.Keeping

/-!
# RepoSeal — keys that stay at version 0

No command adds a version to a key: one is made with version 0, and what is copied, converted, wrapped,
unwrapped or installed is a key that some file holds. So in a tree that commands alone have changed
(`Managed`) every key file, lying open or wrapped, has version 0 and no other, and it lies in a directory
of version 0 if it is wrapped. Each command keeps that (`keeps_run`).
-/

namespace RepoSeal

variable {t t' start : Tree} {p : Path} {content b : Bytes} {kf : KeyFile} {entry : KeyEntry}
  {name : Option KeyName}

/-! ## Key files with version 0 -/

/-- A key file with version 0 and no other. -/
def KeyFile.IsFirst (kf : KeyFile) : Prop := kf.entries.map KeyEntry.version = [0]

namespace KeyFile

theorem IsFirst.exists_entry (h : kf.IsFirst) : ∃ entry, kf.entries = [entry] ∧ entry.version = 0 := by
  unfold IsFirst at h
  obtain ⟨entry, hentries, hversion⟩ := List.map_eq_singleton_iff.mp h
  exact ⟨entry, hentries, hversion⟩

theorem isFirst_single (h : entry.version = 0) : (single name entry).IsFirst := by
  rw [IsFirst, single, List.map_singleton, h]

theorem IsFirst.requireLatest (h : kf.IsFirst) (hlatest : kf.requireLatest = .ok entry) :
    entry.version = 0 ∧ kf.get? 0 = some entry := by
  obtain ⟨first, hentries, hversion⟩ := h.exists_entry
  have hsame : kf.requireLatest = .ok first := by
    rw [KeyFile.requireLatest, getLatest?, hentries]
    rfl
  rw [hsame] at hlatest
  cases hlatest
  refine ⟨hversion, get?_eq_some.mpr ⟨?_, hversion⟩⟩
  rw [hentries]
  exact List.mem_singleton_self _

/-- A key that is made new begins with version 0. -/
theorem isFirst_of_generate {version : UInt32} {material : Octets 96}
    (h : (empty name).generate material = .ok (version, kf)) : kf.IsFirst := by
  have hnext : (empty name).nextVersion = .ok 0 := rfl
  rcases (empty name).generate_eq material with ⟨v, kf', hv, hadd, hgenerate⟩ | ⟨hlast, -⟩
  · rw [hnext] at hv
    cases hv
    rw [add_empty] at hadd
    rw [hgenerate] at h
    cases h
    cases hadd
    exact isFirst_single rfl
  · cases hlast

end KeyFile

/-! ## Wrapped key files -/

namespace Age

variable {scheme : Scheme} {identities : List X25519.PrivateKey} {plaintext : Bytes} {f : String}

/-- Bytes from which some private key gets a key file. -/
def Scheme.Wraps (scheme : Scheme) (content : Bytes) (kf : KeyFile) : Prop :=
  ∃ identity plaintext, scheme.decrypt identity content = .ok plaintext ∧
    KeyFile.decode plaintext = .ok kf

/-- What is asked of a scheme: what it encrypted is decrypted to what it was, and neither that nor
anything else that can be decrypted begins like a key file. -/
structure Scheme.Reliable (scheme : Scheme) : Prop where
  faithful : ∀ chance recipient content identity plaintext,
    scheme.decrypt identity (scheme.encrypt chance recipient content) = .ok plaintext →
      plaintext = content
  encrypt_foreign : ∀ chance recipient content,
    ¬ KeyFile.magic <+: scheme.encrypt chance recipient content
  decrypt_foreign : ∀ identity data plaintext,
    scheme.decrypt identity data = .ok plaintext → ¬ KeyFile.magic <+: data

/-! ## What an age file begins with -/

theorem foreign_of_magic {data : Bytes} (h : Header.magic <+: data) : ¬ KeyFile.magic <+: data := by
  intro hmagic
  have hshort : KeyFile.magic.length ≤ Header.magic.length := by decide
  exact absurd (List.prefix_of_prefix_length_le hmagic h hshort) (by decide)

theorem magic_prefix_encrypt (chance : Chance) (recipient : X25519.PublicKey) (content : Bytes) :
    Header.magic <+: encrypt chance recipient content := by
  simp only [encrypt, Header.writeCovered, List.append_assoc]
  exact List.prefix_append _ _

/-- A rule that is met by certain bytes is met where they stand. -/
theorem Scanner.prefix_of_exactly {b : Bytes} {p q : Place} (h : exactly b p = .done () q) :
    b <+: p.rest := by
  unfold exactly at h
  dsimp only at h
  split at h
  · cases h
  split at h
  · cases h
  split at h
  · rename_i hsame
    rw [← hsame]
    exact List.take_prefix _ _
  · cases h

theorem magic_prefix_of_decrypt {identity : X25519.PrivateKey} {data plaintext : Bytes}
    (h : decrypt identity data = .ok plaintext) : Header.magic <+: data := by
  unfold decrypt at h
  cases hread : Header.read data with
  | error e =>
    rw [hread] at h
    cases h
  | ok r =>
    have hscanner : Header.scanner ⟨data, 0⟩ =
        Scanner.andThen (Scanner.exactly Header.magic) (fun _ =>
          .orElse (Header.withStanzas Header.stanza)
            (.orElse (Header.withStanzas Header.olderStanza) Header.otherVersion)) ⟨data, 0⟩ := rfl
    rw [Header.read, hscanner, Scanner.andThen] at hread
    cases hexact : Scanner.exactly Header.magic ⟨data, 0⟩ with
    | done u q => exact Scanner.prefix_of_exactly hexact
    | refused n =>
      rw [hexact] at hread
      cases hread
    | ended =>
      rw [hexact] at hread
      cases hread

/-- Of age, only that decrypting gives nothing but what was encrypted is left to be asked. -/
theorem standard_reliable
    (h : ∀ chance recipient content identity plaintext,
      decrypt identity (encrypt chance recipient content) = .ok plaintext → plaintext = content) :
    Scheme.standard.Reliable where
  faithful := h
  encrypt_foreign chance recipient content :=
    foreign_of_magic (magic_prefix_encrypt chance recipient content)
  decrypt_foreign _ _ _ hdecrypt := foreign_of_magic (magic_prefix_of_decrypt hdecrypt)

/-! ## Wrapping and unwrapping -/

theorem exists_decrypt_of_unwrap (h : (wrapperWith scheme identities).unwrap content f = .ok plaintext) :
    ∃ identity, scheme.decrypt identity content = .ok plaintext := by
  dsimp only [wrapperWith, unwrapWith] at h
  split at h
  · cases h
  · rename_i identity _
    exact ⟨identity, Attempt.eq_ok_of_mapError h⟩

theorem exists_encrypt_of_wrap {seed : Octets Chance.length} {trusted : Bool}
    (h : (wrapperWith scheme identities).wrap seed plaintext f trusted = .ok content) :
    ∃ chance recipient, content = scheme.encrypt chance recipient plaintext := by
  dsimp only [wrapperWith] at h
  cases hparse : parseRecipient f with
  | error e =>
    rw [hparse] at h
    cases h
  | ok key =>
    rw [hparse] at h
    cases h
    exact ⟨_, key, rfl⟩

theorem fingerprint_of_parse {text : String} {recipient : X25519.PublicKey}
    (h : parseRecipient text = .ok recipient) :
    (wrapperWith scheme identities).fingerprint text = .ok (writeRecipient recipient) := by
  dsimp only [wrapperWith]
  rw [h]
  rfl

theorem wrap_of_parse {text : String} {recipient : X25519.PublicKey} {seed : Octets Chance.length}
    {trusted : Bool} (h : parseRecipient text = .ok recipient) :
    (wrapperWith scheme identities).wrap seed plaintext text trusted =
      .ok (scheme.encrypt (.ofSeed seed) recipient plaintext) := by
  dsimp only [wrapperWith]
  rw [h]
  rfl

theorem getD_alphabet_ne_slash (d : Nat) : Text.Bech32.alphabet.getD d 'q' ≠ '/' := by
  have hmem : Text.Bech32.alphabet.getD d 'q' ∈ 'q' :: Text.Bech32.alphabet := by
    rw [List.getD_eq_getElem?_getD]
    cases hd : Text.Bech32.alphabet[d]? with
    | none => exact List.mem_cons_self
    | some c => exact List.mem_cons_of_mem _ (List.mem_of_getElem? hd)
  have hall : '/' ∉ 'q' :: Text.Bech32.alphabet := by decide
  exact fun heq => hall (heq ▸ hmem)

/-- The text of a public key can be the front of a file name. -/
theorem plain_writeRecipient (key : X25519.PublicKey) : PlainFingerprint (writeRecipient key) := by
  have htext : ∃ cs : List Nat, (writeRecipient key).toList =
      'a' :: 'g' :: 'e' :: '1' :: cs.map fun d => Text.Bech32.alphabet.getD d 'q' := by
    rw [writeRecipient, Text.Bech32.encode, String.toList_ofList]
    exact ⟨_, rfl⟩
  obtain ⟨cs, hcs⟩ := htext
  refine ⟨fun hempty => ?_, ?_, ?_⟩
  · rw [hempty] at hcs
    cases hcs
  · have hrest : '/' ∉ cs.map fun d => Text.Bech32.alphabet.getD d 'q' := by
      intro hmem
      obtain ⟨d, -, hd⟩ := List.mem_map.mp hmem
      exact getD_alphabet_ne_slash d hd
    rw [hcs]
    simp only [List.mem_cons, not_or]
    exact ⟨by decide, by decide, by decide, by decide, hrest⟩
  · rw [hcs, List.head?_cons]
    decide

theorem plain_of_fingerprint {text : String}
    (h : (wrapperWith scheme identities).fingerprint text = .ok f) : PlainFingerprint f := by
  dsimp only [wrapperWith] at h
  cases hparse : parseRecipient text with
  | error e =>
    rw [hparse] at h
    cases h
  | ok key =>
    rw [hparse] at h
    cases h
    exact plain_writeRecipient key

end Age

/-! ## Trees that commands have changed -/

/-- No link has the name of the directory of version 0. -/
def Tree.PlainZero (t : Tree) : Prop :=
  ∀ above target, t.find? (above ++ ["0"]) ≠ some (.link target)

/-- What holds of a tree after commands that began with another one: key files have version 0 and no
other, wrapped ones lie in directories of version 0, and there are no new links. -/
structure Managed (scheme : Age.Scheme) (start t : Tree) : Prop where
  loaded : ∀ loc content mode kf, t.find? loc = some (.file content mode) →
    KeyFile.decode content = .ok kf → kf.IsFirst
  wrapped : ∀ loc content mode kf, t.find? loc = some (.file content mode) →
    scheme.Wraps content kf → kf.IsFirst
  filed : start.PlainZero → ∀ loc content mode kf, t.find? loc = some (.file content mode) →
    scheme.Wraps content kf → ∃ above file, loc = above ++ ["0", file]
  links : ∀ loc target, t.find? loc = some (.link target) → start.find? loc = some (.link target)

namespace Managed

variable {scheme : Age.Scheme}

theorem widens (h : Managed scheme start t) (hwidens : t.Widens t') : Managed scheme start t' := by
  have hfile : ∀ {loc content mode}, t'.find? loc = some (.file content mode) →
      t.find? loc = some (.file content mode) :=
    fun hnew => (hwidens.find?_iff (by intro hdir; cases hdir)).mp hnew
  refine ⟨fun loc content mode kf hnew => h.loaded loc content mode kf (hfile hnew),
    fun loc content mode kf hnew => h.wrapped loc content mode kf (hfile hnew),
    fun hzero loc content mode kf hnew => h.filed hzero loc content mode kf (hfile hnew),
    fun loc target hnew => h.links loc target ?_⟩
  exact (hwidens.find?_iff (by intro hdir; cases hdir)).mp hnew

/-- A file may be put at a path if what can be got from it is as it should be. -/
theorem replaceFile (h : Managed scheme start t) (hput : t.replaceFile p content = .ok t')
    (hloaded : ∀ kf, KeyFile.decode content = .ok kf → kf.IsFirst)
    (hwrapped : ∀ kf, scheme.Wraps content kf → kf.IsFirst)
    (hfiled : start.PlainZero → ∀ kf dir name, t.NamesEntry p dir name → scheme.Wraps content kf →
      ∃ above file, dir ++ [name] = above ++ ["0", file]) :
    Managed scheme start t' := by
  obtain ⟨-, dir, name, hentry, -, rfl⟩ := Tree.replaceFile_eq_ok.mp hput
  have hcases : ∀ {loc old mode},
      (t.put (dir ++ [name]) (.file content Tree.privateMode)).find? loc = some (.file old mode) →
      (loc = dir ++ [name] ∧ old = content) ∨ t.find? loc = some (.file old mode) := by
    intro loc old mode hnew
    rw [Tree.find?_put] at hnew
    split at hnew
    · rename_i hloc
      cases hnew
      exact .inl ⟨hloc, rfl⟩
    · exact .inr hnew
  refine ⟨fun loc old mode kf hnew hkf => ?_, fun loc old mode kf hnew hkf => ?_,
    fun hzero loc old mode kf hnew hkf => ?_, fun loc target hnew => ?_⟩
  · rcases hcases hnew with ⟨-, rfl⟩ | hold
    · exact hloaded kf hkf
    · exact h.loaded loc old mode kf hold hkf
  · rcases hcases hnew with ⟨-, rfl⟩ | hold
    · exact hwrapped kf hkf
    · exact h.wrapped loc old mode kf hold hkf
  · rcases hcases hnew with ⟨rfl, rfl⟩ | hold
    · exact hfiled hzero kf dir name hentry hkf
    · exact h.filed hzero loc old mode kf hold hkf
  · rw [Tree.find?_put] at hnew
    split at hnew
    · cases hnew
    · exact h.links loc target hnew

/-- A key file that lies open is wrapped in nothing. -/
theorem replaceFile_encode (h : Managed scheme start t) (hscheme : scheme.Reliable)
    (hfirst : kf.IsFirst) (hput : t.replaceFile p kf.encode = .ok t') : Managed scheme start t' := by
  have hopen : ∀ kf', ¬ scheme.Wraps kf.encode kf' := by
    rintro kf' ⟨identity, plaintext, hdecrypt, -⟩
    exact hscheme.decrypt_foreign identity _ plaintext hdecrypt kf.magic_prefix_encode
  refine h.replaceFile hput (fun kf' hkf' => ?_) (fun kf' hkf' => absurd hkf' (hopen kf'))
    fun _ kf' _ _ _ hkf' => absurd hkf' (hopen kf')
  rw [KeyFile.decode_encode] at hkf'
  cases hkf'
  exact hfirst

/-- A wrapped key file can be put in a directory of version 0. -/
theorem replaceFile_encrypt {chance : Age.Chance} {recipient : X25519.PublicKey}
    {front : List String} {file : String} (h : Managed scheme start t) (hscheme : scheme.Reliable)
    (hfirst : kf.IsFirst) (hparts : p.parts = front ++ ["0", file])
    (hput : t.replaceFile p (scheme.encrypt chance recipient kf.encode) = .ok t') :
    Managed scheme start t' := by
  have hsame : ∀ kf', scheme.Wraps (scheme.encrypt chance recipient kf.encode) kf' → kf' = kf := by
    rintro kf' ⟨identity, plaintext, hdecrypt, hdecode⟩
    rw [hscheme.faithful _ _ _ _ _ hdecrypt, KeyFile.decode_encode] at hdecode
    cases hdecode
    rfl
  refine h.replaceFile hput (fun kf' hkf' => ?_) (fun kf' hkf' => hsame kf' hkf' ▸ hfirst)
    fun hzero _ dir name hentry _ => ?_
  · exact absurd (KeyFile.magic_prefix_of_decode hkf') (hscheme.encrypt_foreign _ _ _)
  · -- the way leads through a directory of version 0, for no link has its name
    obtain ⟨front', k, hparts', hgoes⟩ := hentry.way
    rw [hparts, List.append_cons front "0" [file]] at hparts'
    obtain ⟨hfront, hname⟩ := List.append_inj' hparts' rfl
    rw [← hfront] at hgoes
    obtain ⟨above, rfl⟩ := hgoes.directory_of_concat (by decide) (by decide) (by decide)
      fun above target hlink => hzero above target (h.links _ _ hlink)
    exact ⟨above, name, by rw [List.append_assoc]; rfl⟩

end Managed

section

variable {scheme : Age.Scheme} {inv : Tree → Prop} {place : Workplace}

open Attempt

/-! ## Key files -/

theorem KeyFile.keeps_loadFrom (p : Path) :
    (loadFrom p).Keeps (Managed scheme start) IsFirst := by
  refine keeps_of_gives fun t ht => ?_
  cases hread : t.contentsAt p with
  | error fault =>
    refine ⟨_, gives_loadFrom_error hread, fun kf hkf => ?_⟩
    cases hkf
  | ok b =>
    refine ⟨_, gives_loadFrom hread, fun kf hkf => ?_⟩
    obtain ⟨loc, mode, hlookup⟩ := Tree.contentsAt_eq_ok.mp hread
    exact ht.loaded loc b mode kf (Tree.find?_of_lookup_file hlookup) (loaded_eq_ok.mp hkf)

theorem KeyFile.keeps_storeAt (hscheme : scheme.Reliable) (hfirst : kf.IsFirst) (p : Path) :
    (kf.storeAt p).Keeps (Managed scheme start) fun _ => True := by
  rw [storeAt_eq]
  have hput : (Store.putBlob p kf.encode).Keeps (Managed scheme start) fun _ => True :=
    keeps_putBlob (fun t t' ht => ht.widens) fun t t' ht => ht.replaceFile_encode hscheme hfirst
  exact hput.andThen fun _ => keeps_ask (Plan.still_log _)

theorem KeyFile.keeps_generateFresh (name : Option KeyName) :
    ((empty name).generateFresh).Keeps inv fun r => r.2.IsFirst := by
  refine (keeps_ofExcept fun _ _ => trivial).andThen fun _ => ?_
  refine (keeps_ask (Plan.still_random 96)).andThen fun r => ?_
  cases r with
  | error text => exact keeps_fail _
  | ok material =>
    have hgenerate : (ofExcept ((empty name).generate material)).Keeps inv fun r => r.2.IsFirst :=
      keeps_ofExcept fun r hr => isFirst_of_generate hr
    refine hgenerate.bind fun r hr => ?_
    exact (keeps_ask (Plan.still_log _)).andThen fun _ => keeps_pure hr

namespace Workplace

theorem keeps_loadKey (place : Workplace) (key : KeyChoice) :
    (place.loadKey key).Keeps (Managed scheme start) KeyFile.IsFirst := by
  refine (keeps_ofExcept fun _ _ => trivial).andThen fun p => ?_
  refine (keeps_ask (Plan.still_exists p)).andThen fun there => ?_
  split
  · exact ((KeyFile.keeps_loadFrom p).inLibrary).during _
  · exact keeps_fail _

theorem keeps_install (place : Workplace) (hscheme : scheme.Reliable) (hfirst : kf.IsFirst) :
    (place.install kf).Keeps (Managed scheme start) fun _ => True := by
  refine Keeps.inLibrary ?_
  refine (keeps_ofExcept fun _ _ => trivial).andThen fun p => ?_
  exact KeyFile.keeps_storeAt hscheme hfirst p

theorem keeps_installAll (place : Workplace) (hscheme : scheme.Reliable) {keys : List KeyFile}
    (hkeys : ∀ kf ∈ keys, kf.IsFirst) :
    (place.installAll keys).Keeps (Managed scheme start) fun _ => True := by
  induction keys with
  | nil => exact keeps_pure trivial
  | cons kf rest ih =>
    obtain ⟨hfirst, hrest⟩ := List.forall_mem_cons.mp hkeys
    refine (place.keeps_install hscheme hfirst).andThen fun _ => ?_
    exact (keeps_ask (Plan.still_writeLine _)).andThen fun _ => ih hrest

theorem keeps_loadKeys (place : Workplace) (files : List Path) :
    (place.loadKeys files).Keeps (Managed scheme start) fun keys => ∀ kf ∈ keys, kf.IsFirst := by
  induction files with
  | nil => exact keeps_pure fun kf hkf => absurd hkf List.not_mem_nil
  | cons p rest ih =>
    have hload : (((KeyFile.loadFrom (p.expandHome place.home)).inLibrary).during
        (.loadingKeyFile p)).Keeps (Managed scheme start) KeyFile.IsFirst :=
      ((KeyFile.keeps_loadFrom _).inLibrary).during _
    refine hload.bind fun kf hfirst => ?_
    exact ih.bind fun keys hkeys => keeps_pure (List.forall_mem_cons.mpr ⟨hfirst, hkeys⟩)

end Workplace

/-! ## Wrapped keys -/

namespace Store

variable {base : Path} {identities : List X25519.PrivateKey}

theorem keeps_unwrapBlob (p : Path) (f : String) (name : Option String) (v : UInt32) :
    ((⟨base, Age.wrapperWith scheme identities⟩ : Store).unwrapBlob p f name v).Keeps
      (Managed scheme start) KeyFile.IsFirst := by
  -- what is read is decrypted, and then it is read as a key file
  have hread : (orFault (Plan.contents p)).Keeps (Managed scheme start)
      fun b => ∀ kf, scheme.Wraps b kf → kf.IsFirst := by
    refine keeps_of_gives fun t ht => ?_
    cases hread : t.contentsAt p with
    | error fault =>
      refine ⟨_, gives_contents_error hread, fun b hb => ?_⟩
      cases hb
    | ok b =>
      refine ⟨_, gives_contents hread, fun b' hb' => ?_⟩
      cases hb'
      obtain ⟨loc, mode, hlookup⟩ := Tree.contentsAt_eq_ok.mp hread
      exact fun kf => ht.wrapped loc b mode kf (Tree.find?_of_lookup_file hlookup)
  refine hread.bind fun b hb => ?_
  have hopened : (ofExcept ((Age.wrapperWith scheme identities).unwrap b f)).Keeps
      (Managed scheme start) fun plaintext =>
        ∀ kf, KeyFile.decode plaintext = .ok kf → kf.IsFirst := by
    refine keeps_ofExcept fun plaintext hplaintext kf hkf => hb kf ?_
    obtain ⟨identity, hdecrypt⟩ := Age.exists_decrypt_of_unwrap hplaintext
    exact ⟨identity, plaintext, hdecrypt, hkf⟩
  refine hopened.bind fun plaintext hplaintext => ?_
  have hload : Attempt.Keeps (ExceptT.mk (KeyFile.loadLogged plaintext)) (Managed scheme start)
      KeyFile.IsFirst :=
    keeps_of_gives fun t _ => ⟨_, gives_loadLogged plaintext, hplaintext⟩
  refine hload.bind fun kf hfirst => ?_
  split
  · exact keeps_fail _
  · exact keeps_pure hfirst

theorem keeps_unwrapWith (name : Option String) (v : UInt32) (failure : Error) (fs : List String) :
    ((⟨base, Age.wrapperWith scheme identities⟩ : Store).unwrapWith name v failure fs).Keeps
      (Managed scheme start) KeyFile.IsFirst := by
  induction fs generalizing failure with
  | nil => exact keeps_fail _
  | cons f fs ih =>
    refine (keeps_ask (Plan.still_exists _)).andThen fun there => ?_
    split
    · refine (keeps_unwrapBlob _ f name v).outcome.bind fun r hr => ?_
      cases r with
      | ok kf => exact (keeps_ask (Plan.still_log _)).andThen fun _ => keeps_pure (hr kf rfl)
      | error e => exact (keeps_ask (Plan.still_log _)).andThen fun _ => ih e
    · exact ih failure

theorem keeps_unwrapKey (name : Option String) (v : UInt32) :
    ((⟨base, Age.wrapperWith scheme identities⟩ : Store).unwrapKey name v).Keeps
      (Managed scheme start) KeyFile.IsFirst := by
  refine (keeps_ofExcept fun _ _ => trivial).andThen fun fs => ?_
  exact keeps_unwrapWith name v _ fs

theorem keeps_unwrapEach (v : UInt32) (names : List (Option KeyName)) :
    ((⟨base, Age.wrapperWith scheme identities⟩ : Store).unwrapEach v names).Keeps
      (Managed scheme start) fun keys => ∀ kf ∈ keys, kf.IsFirst := by
  induction names with
  | nil => exact keeps_pure fun kf hkf => absurd hkf List.not_mem_nil
  | cons name rest ih =>
    refine (keeps_unwrapKey (name.map KeyName.text) v).outcome.bind fun r hr => ?_
    cases r with
    | ok kf =>
      exact ih.bind fun keys hkeys => keeps_pure (List.forall_mem_cons.mpr ⟨hr kf rfl, hkeys⟩)
    | error e =>
      cases e with
      | keyNotFound cause => exact (keeps_ask (Plan.still_log _)).andThen fun _ => ih
      | _ => exact keeps_fail _

theorem keeps_listDirectory (p : Path) :
    (orFault (Plan.listDirectory p)).Keeps inv fun _ => True := by
  refine keeps_of_gives fun t _ => ?_
  cases hlist : t.listDirectory p with
  | ok entries => exact ⟨_, gives_listDirectory hlist, fun _ _ => trivial⟩
  | error fault => exact ⟨_, gives_listDirectory_error hlist, fun _ _ => trivial⟩

theorem keeps_keyNames (s : Store) : s.keyNames.Keeps inv fun _ => True := by
  refine (keeps_ask (Plan.still_presence _)).andThen fun there => ?_
  split
  · exact keeps_pure trivial
  · refine (keeps_listDirectory _).andThen fun entries => ?_
    exact (keeps_ask (Plan.still_log _)).andThen fun _ => keeps_pure trivial

theorem parts_blobPath_zero (s : Store) (hsuffix : '/' ∉ s.wrapper.suffix.toList)
    (name : Option KeyName) {f : String} (hf : PlainFingerprint f) :
    ∃ front, (s.blobPath (name.map KeyName.text) 0 f).parts = front ++ ["0", s.fileName f] := by
  obtain ⟨hfile, -⟩ := s.isPart_fileName hsuffix hf
  obtain ⟨hversion, -⟩ := isPart_toString 0
  refine ⟨(s.keyDir (name.map KeyName.text)).parts, ?_⟩
  show (s.keyDir (name.map KeyName.text) / toString (0 : UInt32) / s.fileName f).parts = _
  rw [Path.parts_join _ hfile, Path.parts_join _ hversion, List.append_assoc]
  rfl

theorem keeps_wrapFor {plaintext : Bytes} {f : String} {trusted : Bool} :
    ((⟨base, Age.wrapperWith scheme identities⟩ : Store).wrapFor plaintext f trusted).Keeps inv
      fun b => ∃ chance recipient, b = scheme.encrypt chance recipient plaintext := by
  refine (keeps_ask (Plan.still_log _)).andThen fun _ => ?_
  refine (keeps_ask (Plan.still_random _)).andThen fun r => ?_
  cases r with
  | error text => exact keeps_fail _
  | ok seed => exact keeps_ofExcept fun b hb => Age.exists_encrypt_of_wrap hb

/-- Each copy of a key with version 0 is put in a directory of version 0. -/
theorem keeps_addEach (hscheme : scheme.Reliable) (hfirst : kf.IsFirst) (trusted : Bool)
    {fs : List String} (hfs : ∀ f ∈ fs, PlainFingerprint f) :
    ((⟨base, Age.wrapperWith scheme identities⟩ : Store).addEach kf 0 trusted fs).Keeps
      (Managed scheme start) fun _ => True := by
  induction fs with
  | nil => exact keeps_pure trivial
  | cons f fs ih =>
    obtain ⟨hf, hfs⟩ := List.forall_mem_cons.mp hfs
    refine (keeps_ask (Plan.still_exists _)).andThen fun there => ?_
    split
    · exact (keeps_ask (Plan.still_log _)).andThen fun _ => ih hfs
    · refine keeps_wrapFor.bind fun b hb => ?_
      obtain ⟨chance, recipient, rfl⟩ := hb
      have hsuffix : '/' ∉ "age".toList := by decide
      obtain ⟨front, hparts⟩ := parts_blobPath_zero
        ⟨base, Age.wrapperWith scheme identities⟩ hsuffix kf.name hf
      have hput : (putBlob _ (scheme.encrypt chance recipient kf.encode)).Keeps
          (Managed scheme start) fun _ => True :=
        keeps_putBlob (fun t t' ht => ht.widens) fun t t' ht =>
          ht.replaceFile_encrypt hscheme hfirst hparts
      refine hput.andThen fun _ => ?_
      refine (keeps_ask (Plan.still_log _)).andThen fun _ => ?_
      exact (ih hfs).andThen fun _ => keeps_pure trivial

theorem keeps_addCollaborators (hscheme : scheme.Reliable) (hfirst : kf.IsFirst)
    (recipients : List String) (trusted : Bool) :
    ((⟨base, Age.wrapperWith scheme identities⟩ : Store).addCollaborators kf recipients trusted).Keeps
      (Managed scheme start) fun _ => True := by
  have hplain : (ofExcept (recipients.mapM (Age.wrapperWith scheme identities).fingerprint)).Keeps
      (Managed scheme start) fun fs => ∀ f ∈ fs, PlainFingerprint f := by
    refine keeps_ofExcept fun fs hfs f hf => ?_
    obtain ⟨text, -, htext⟩ := exists_of_mem_mapM hfs hf
    exact Age.plain_of_fingerprint htext
  refine hplain.bind fun fs hfs => ?_
  have hlatest : (ofExcept kf.requireLatest).Keeps (Managed scheme start)
      fun entry => entry.version = 0 :=
    keeps_ofExcept fun entry hentry => (hfirst.requireLatest hentry).1
  refine hlatest.bind fun entry hversion => ?_
  rw [KeyFile.add_empty, hversion]
  have hsingle : (ofExcept (.ok (KeyFile.single kf.name entry) : Except Error KeyFile)).Keeps
      (Managed scheme start) fun single => single = .single kf.name entry :=
    keeps_ofExcept fun single h => (Except.ok.inj h).symm
  refine hsingle.bind fun single hsame => ?_
  subst hsame
  exact keeps_addEach hscheme (KeyFile.isFirst_single hversion) trusted hfs

theorem keeps_mapM {ε α β : Type} {f : α → Attempt ε β} (hf : ∀ a, (f a).Keeps inv fun _ => True)
    (l : List α) : (l.mapM f).Keeps inv fun _ => True := by
  induction l with
  | nil => exact keeps_pure trivial
  | cons a l ih =>
    rw [List.mapM_cons]
    exact (hf a).andThen fun _ => ih.andThen fun _ => keeps_pure trivial

theorem keeps_list (s : Store) : s.list.Keeps inv fun _ => True := by
  refine s.keeps_keyNames.andThen fun names => ?_
  refine (keeps_mapM (fun name => ?_) names).andThen fun _ => keeps_pure trivial
  refine (keeps_listDirectory _).andThen fun entries => ?_
  refine (keeps_mapM (fun version => ?_) _).andThen fun _ => keeps_pure trivial
  exact (keeps_listDirectory _).andThen fun entries => keeps_pure trivial

end Store

/-! ## Identities -/

namespace IdentitySearch

theorem keeps_tryFile (label : String) (at_ : Option Path) {missing : Path → Plan Unit}
    (hmissing : ∀ p, (missing p).Still) {next : Attempt Error FoundIdentity}
    (hnext : next.Keeps inv fun _ => True) :
    (tryFile label at_ missing next).Keeps inv fun _ => True := by
  cases at_ with
  | none => exact hnext
  | some p =>
    refine (keeps_ask (Plan.still_exists p)).andThen fun there => ?_
    split
    · refine (keeps_ask (Plan.still_readText p)).andThen fun r => ?_
      cases r with
      | ok text => exact keeps_pure trivial
      | error fault => exact keeps_fail _
    · exact (keeps_ask (hmissing p)).andThen fun _ => hnext

theorem keeps_find (s : IdentitySearch) : s.find.Keeps inv fun _ => True := by
  refine keeps_tryFile _ _ (fun p => Plan.still_log _) ?_
  cases s.literal with
  | some text => exact keeps_pure trivial
  | none =>
    refine keeps_tryFile _ _ (fun p => Plan.still_pure ()) ?_
    exact keeps_tryFile _ _ (fun p => Plan.still_pure ()) (keeps_fail _)

end IdentitySearch

theorem keeps_findIdentity (env : Environment) (identities : Identities) :
    (findIdentity env identities).Keeps inv fun _ => True :=
  (IdentitySearch.keeps_find _).andThen fun _ =>
    (keeps_ask (Plan.still_log _)).andThen fun _ => keeps_pure trivial

theorem Workplace.keeps_unwrapKeys (place : Workplace) :
    place.unwrapKeys.Keeps (Managed place.scheme start) fun keys => ∀ kf ∈ keys, kf.IsFirst := by
  refine ((keeps_findIdentity _ _).inLibrary).andThen fun found => ?_
  refine (keeps_ofExcept fun _ _ => trivial).andThen fun identities => ?_
  refine (keeps_ask (Plan.still_log _)).andThen fun _ => ?_
  have hall : ((place.store identities).unwrapAll Envelope.keyVersion).Keeps
      (Managed place.scheme start) fun keys => ∀ kf ∈ keys, kf.IsFirst :=
    (Store.keeps_keyNames _).andThen fun names => Store.keeps_unwrapEach _ names
  refine hall.inLibrary.bind fun keys hkeys => ?_
  cases keys with
  | nil => exact keeps_fail _
  | cons kf rest => exact keeps_pure hkeys

/-! ## Commands -/

namespace Command

theorem keeps_generateKey (hscheme : scheme.Reliable) (p : Path) (name : Option String) :
    (generateKey p name).Keeps (Managed scheme start) fun _ => True := by
  refine (keeps_ask (Plan.still_exists p)).andThen fun there => ?_
  split
  · exact keeps_fail _
  · have hnamed : (ofExcept (KeyFile.named name)).Keeps (Managed scheme start)
        fun kf => ∃ n, kf = KeyFile.empty n := by
      refine keeps_ofExcept fun kf hkf => ?_
      cases name with
      | none =>
        cases hkf
        exact ⟨none, rfl⟩
      | some text =>
        cases hparse : KeyName.parse text with
        | error e =>
          rw [KeyFile.named, hparse] at hkf
          cases hkf
        | ok n =>
          rw [KeyFile.named, hparse] at hkf
          cases hkf
          exact ⟨some n, rfl⟩
    refine Keeps.andThen (Keeps.inLibrary ?_) fun _ => ?_
    · refine hnamed.bind fun kf hkf => ?_
      obtain ⟨n, rfl⟩ := hkf
      exact (KeyFile.keeps_generateFresh n).bind fun r hfirst =>
        KeyFile.keeps_storeAt hscheme hfirst p
    · exact (keeps_ask (Plan.still_writeLine _)).andThen fun _ => keeps_pure trivial

theorem keeps_copyKey (hscheme : scheme.Reliable) (place : Workplace) (p : Path) (key : KeyChoice) :
    (copyKey place p key).Keeps (Managed scheme start) fun _ => True := by
  refine (place.keeps_loadKey key).bind fun kf hfirst => ?_
  split
  · exact (keeps_ask (Plan.still_write _)).andThen fun _ => keeps_pure trivial
  · exact ((KeyFile.keeps_storeAt hscheme hfirst p).inLibrary).andThen fun _ => keeps_pure trivial

theorem keeps_convertKey (hscheme : scheme.Reliable) (old new : Path) :
    (convertKey old new).Keeps (Managed scheme start) fun _ => True := by
  have hread : ((orBareFault (Plan.contents old)).during (.readingFile old)).Keeps
      (Managed scheme start) fun _ => True :=
    (keeps_of_gives fun t _ => ⟨_, gives_bareContents old, fun _ _ => trivial⟩).during _
  refine hread.andThen fun data => ?_
  split
  · exact keeps_fail _
  · have hload : ((ofExcept ((KeyFile.loadLegacy (.ofBytes data)).1.mapError Failure.library)).during
        (.readingLegacyKey old)).Keeps (Managed scheme start) KeyFile.IsFirst := by
      refine (keeps_ofExcept fun kf hkf => ?_).during _
      obtain ⟨material, -, rfl⟩ := KeyFile.loadLegacy_eq_ok.mp (eq_ok_of_mapError hkf)
      exact KeyFile.isFirst_single rfl
    refine hload.bind fun kf hfirst => ?_
    refine ((KeyFile.keeps_storeAt hscheme hfirst new).inLibrary).andThen fun _ => ?_
    exact (keeps_ask (Plan.still_writeLine _)).andThen fun _ => keeps_pure trivial

theorem keeps_installKeys (place : Workplace) (hscheme : place.scheme.Reliable) (files : List Path) :
    (installKeys place files).Keeps (Managed place.scheme start) fun _ => True := by
  have hinstall : ∀ keys : List KeyFile, (∀ kf ∈ keys, kf.IsFirst) → (do
      place.installAll keys
      return .done : Attempt Failure Ending).Keeps (Managed place.scheme start) fun _ => True :=
    fun keys hkeys => (place.keeps_installAll hscheme hkeys).andThen fun _ => keeps_pure trivial
  unfold installKeys
  dsimp only
  split
  · exact place.keeps_unwrapKeys.bind hinstall
  · exact (place.keeps_loadKeys files).bind hinstall

/-- Telling line by line what was done. -/
theorem keeps_lines {α : Type} (l : List α) (line : α → String) :
    (do
      Attempt.ask (l.forM fun a => Plan.writeLine (line a))
      return .done : Attempt Failure Ending).Keeps inv fun _ => True :=
  (keeps_ask (Plan.still_forM l fun _ => Plan.still_writeLine _)).andThen fun _ => keeps_pure trivial

theorem keeps_share (place : Workplace) (hscheme : place.scheme.Reliable) (recipients : List String)
    (trusted : Bool) (name : Option String) :
    (share place recipients trusted name).Keeps (Managed place.scheme start) fun _ => True := by
  refine (place.keeps_loadKey { name }).bind fun kf hfirst => ?_
  refine ((Store.keeps_addCollaborators hscheme hfirst recipients _).inLibrary).andThen
    fun added => ?_
  split
  · exact (keeps_ask (Plan.still_writeLine _)).andThen fun _ => keeps_lines _ _
  · exact keeps_lines _ _

theorem keeps_listShared (place : Workplace) : (listShared place).Keeps inv fun _ => True := by
  refine ((Store.keeps_list _).inLibrary).andThen fun keys => ?_
  split
  · exact (keeps_ask (Plan.still_writeLine _)).andThen fun _ => keeps_lines _ _
  · exact keeps_lines _ _

end Command

end

end RepoSeal
