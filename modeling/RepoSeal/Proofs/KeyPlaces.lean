import RepoSeal.Proofs.AllKeys
import RepoSeal.Proofs.Filters

/-!
# RepoSeal — the places that key names stand for

A key name becomes the name of a file and of a directory. Every way for a text to become a key name
checks it in the same manner (`parse_cases`, `decode_naming`), and what passes is a name that leads one
step down, whatever directory it is joined to (`Path.under_join`). Since the default key is filed under
a name that no key can have, and names, versions and fingerprints are read back from paths, different
keys and different copies have different places (`installedPath_injective`, `blobPath_injective`).
-/

namespace RepoSeal

open TaggedField

/-! ## Paths below a directory -/

/-- A path that goes on from a directory by some names, each of which leads one step down. -/
structure Path.Under (p dir : Path) (names : List String) : Prop where
  parts_eq : p.parts = dir.parts ++ names
  ordinary : ∀ name ∈ names, Path.IsPart name ∧ name ≠ ".."
  isAbsolute_eq : p.isAbsolute = dir.isAbsolute
  ending_eq : p.ending = []

namespace Path

theorem Under.join {p dir : Path} {names : List String} {name : String} (h : p.Under dir names)
    (hname : IsPart name ∧ name ≠ "..") : (p / name).Under dir (names ++ [name]) where
  parts_eq := by rw [parts_join p hname.1, h.parts_eq, List.append_assoc]
  ordinary := List.forall_mem_append.mpr ⟨h.ordinary, List.forall_mem_singleton.mpr hname⟩
  isAbsolute_eq := (isAbsolute_join p hname.1).trans h.isAbsolute_eq
  ending_eq := ending_join p hname.1

theorem under_join (dir : Path) {name : String} (hname : IsPart name ∧ name ≠ "..") :
    (dir / name).Under dir [name] where
  parts_eq := parts_join dir hname.1
  ordinary := List.forall_mem_singleton.mpr hname
  isAbsolute_eq := isAbsolute_join dir hname.1
  ending_eq := ending_join dir hname.1

/-- Paths with the same parts have the same names below a directory. -/
theorem Under.names_eq {p q dir : Path} {names names' : List String} (hp : p.Under dir names)
    (hq : q.Under dir names') (h : p.parts = q.parts) : names = names' := by
  rw [hp.parts_eq, hq.parts_eq] at h
  exact List.append_cancel_left h

end Path

/-! ## Texts that become key names -/

namespace KeyName

theorem parse_cases (text : String) :
    (∃ flaw, keyNameFlaw text = some flaw ∧ parse text = .error (.invalidKeyName text flaw)) ∨
      ∃ name : KeyName, name.text = text ∧ parse text = .ok name := by
  unfold parse ofText
  split
  · rename_i heq
    split at heq
    · cases heq
      exact .inr ⟨_, rfl, rfl⟩
    · cases heq
  · rename_i heq
    split at heq
    · cases heq
    · rename_i hflaw
      cases heq
      exact .inl ⟨_, hflaw, rfl⟩

end KeyName

namespace KeyFile

/-- A key file in whose header a field follows on others. -/
def naming (front : List TaggedField) (f : TaggedField) (rest : Bytes) : Bytes :=
  preamble formatVersion ++ (encodeRow front ++ (f.encode ++ rest))

theorem isName_utf8 (name : KeyName) : IsName (utf8 name.text) :=
  ⟨(keyNameFlaw_eq_none.mp name.valid).2.2.2, name.text, ofUtf8?_eq_some.mpr rfl, name.valid⟩

/-- What is no key name makes a name field malformed. -/
theorem header_absorb_malformed {f : TaggedField} (hid : f.id = nameField) (hnot : ¬ IsName f.payload)
    (st : Option KeyName) : ∃ cause, headerLayout.absorb st f = .error (.malformed cause) := by
  obtain ⟨e, he⟩ := (header_absorb_name hid st).2 hnot
  cases headerLayout.refusal_of_absorb he with
  | critical h =>
    -- the name field is known, so it is not its id that it is refused for
    rw [hid] at h
    cases h.1
  | flaw _ cause => exact ⟨cause, he⟩

/-- A key file is malformed if a field for its name holds anything else, whatever follows it. -/
theorem decode_naming {front : List TaggedField} (hfront : ∀ g ∈ front, HeaderField g)
    {f : TaggedField} (hid : f.id = nameField) (hnot : ¬ IsName f.payload) (rest : Bytes) :
    ∃ cause, decode (naming front f rest) = .error (.malformed cause) := by
  obtain ⟨name, habsorb, -⟩ := header_absorbAll hfront
  obtain ⟨cause, hf⟩ := header_absorb_malformed hid hnot name
  obtain ⟨back, tail, hrest⟩ := exists_cutting rest
  have hbytes : encodeRow front ++ (f.encode ++ rest) =
      encodeRow (front ++ f :: back) ++ tail.bytes := by
    rw [encodeRow_append, encodeRow_cons, hrest]
    simp only [List.append_assoc]
  have hrefused : headerLayout.absorbAll none (front ++ f :: back) = .error (.malformed cause) := by
    rw [Layout.absorbAll_append, habsorb]
    show headerLayout.absorbAll name (f :: back) = _
    rw [Layout.absorbAll_cons, hf]
    rfl
  refine ⟨cause, load_of_headerError (fun j hj => ?_) (Input.delivers_ofBytes _)⟩
  rw [hbytes] at hj
  have hread := headerLayout.readFields_yields none _ tail hj
  rw [Layout.readCutting, hrefused] at hread
  exact hread

end KeyFile

/-! ## Places of installed keys -/

namespace Workplace

variable (w : Workplace)

/-- A name with a flaw has no place. -/
theorem installedPath_of_flaw {n : String} {flaw : NameFlaw}
    (h : KeyName.parse n = .error (.invalidKeyName n flaw)) :
    w.installedPath (some n) = .error (.invalidKeyName n flaw) := by
  show (KeyName.parse n >>= fun _ => _) = _
  rw [h]
  rfl

/-- What has a place is the name of a key, or is not given. -/
theorem installedPath_cases (n : Option String) :
    (∃ text flaw, n = some text ∧ w.installedPath n = .error (.invalidKeyName text flaw)) ∨
      ∃ name : Option KeyName, n = name.map KeyName.text ∧
        w.installedPath n = .ok (w.config.keyFilesDir w.home / shownKeyName name) := by
  cases n with
  | none => exact .inr ⟨none, rfl, rfl⟩
  | some text =>
    rcases KeyName.parse_cases text with ⟨flaw, -, hparse⟩ | ⟨name, rfl, -⟩
    · exact .inl ⟨text, flaw, rfl, w.installedPath_of_flaw hparse⟩
    · exact .inr ⟨some name, rfl, Store.installedPath_eq w (some name)⟩

/-- An installed key lies right below the directory of keys. -/
theorem under_installedPath {n : Option String} {p : Path} (h : w.installedPath n = .ok p) :
    ∃ name : Option KeyName, n = name.map KeyName.text ∧
      p.Under (w.config.keyFilesDir w.home) [shownKeyName name] := by
  rcases w.installedPath_cases n with ⟨_, _, -, herror⟩ | ⟨name, hn, hok⟩
  · rw [h] at herror
    cases herror
  · rw [h] at hok
    cases hok
    exact ⟨name, hn, Path.under_join _ (isPart_shownKeyName name)⟩

theorem installedPath_injective {a b : Option String} {p q : Path}
    (ha : w.installedPath a = .ok p) (hb : w.installedPath b = .ok q) (h : p.parts = q.parts) :
    a = b := by
  obtain ⟨name, rfl, hp⟩ := w.under_installedPath ha
  obtain ⟨name', rfl, hq⟩ := w.under_installedPath hb
  rw [Store.shownKeyName_injective (List.singleton_inj.mp (hp.names_eq hq h))]

/-- A command whose key has a name with a flaw fails before it looks for the key. -/
theorem gives_loadKey_of_flaw {n : String} {flaw : NameFlaw}
    (h : KeyName.parse n = .error (.invalidKeyName n flaw)) (t : Tree) :
    (w.loadKey { name := some n }).Gives t (.error (.library (.invalidKeyName n flaw))) := by
  have hpath : w.keyPath { name := some n } = .error (.invalidKeyName n flaw) :=
    w.installedPath_of_flaw h
  rw [loadKey, hpath]
  exact (Attempt.gives_ofExcept _).bind_error

end Workplace

/-! ## Places of copies -/

/-- What can stand behind the dot at the end of a file name. -/
structure IsExtension (suffix : String) : Prop where
  ne_empty : suffix ≠ ""
  no_slash : '/' ∉ suffix.toList

theorem isExtension_age : IsExtension "age" := ⟨by decide, by decide⟩

/-- A fingerprint of which a file name can be made. -/
structure Fileable (fingerprint : String) : Prop where
  ne_empty : fingerprint ≠ ""
  no_slash : '/' ∉ fingerprint.toList

namespace Store

variable {s : Store}

/-- A fingerprint may be made of dots: its file then has a longer name that is made of more. -/
theorem namesFile_of_fileable (hs : IsExtension s.wrapper.suffix) {f : String} (hf : Fileable f) :
    s.NamesFile f := by
  have hfile : (s.fileName f).toList = f.toList ++ '.' :: s.wrapper.suffix.toList := by
    rw [fileName, String.append_assoc, String.toList_append, String.toList_append]
    rfl
  obtain ⟨c, cs, hcs⟩ := List.exists_cons_of_ne_nil fun hnil =>
    hf.ne_empty (String.toList_eq_nil_iff.mp hnil)
  obtain ⟨d, ds, hds⟩ := List.exists_cons_of_ne_nil fun hnil =>
    hs.ne_empty (String.toList_eq_nil_iff.mp hnil)
  have hlen : 3 ≤ (s.fileName f).toList.length := by
    rw [hfile, hcs, hds]
    simp only [List.length_append, List.length_cons]
    omega
  have hne : ∀ short : String, short.toList.length < 3 → s.fileName f ≠ short := by
    rintro _ hshort rfl
    omega
  refine ⟨⟨hne "" (by decide), ?_, hne "." (by decide)⟩, hne ".." (by decide)⟩
  rw [hfile, List.mem_append, List.mem_cons]
  rintro (h | h | h)
  · exact hf.no_slash h
  · exact absurd h (by decide)
  · exact hs.no_slash h

/-- The copies of a key have a directory of their own right below that of all copies. -/
theorem under_keyDir (s : Store) (name : Option KeyName) :
    (s.keyDir (name.map KeyName.text)).Under s.root [shownKeyName name] := by
  rw [keyDir, getD_defaultKeyName]
  exact Path.under_join s.root (isPart_shownKeyName name)

theorem keyDir_injective {a b : Option KeyName}
    (h : (s.keyDir (a.map KeyName.text)).parts = (s.keyDir (b.map KeyName.text)).parts) : a = b :=
  shownKeyName_injective
    (List.singleton_inj.mp ((under_keyDir s a).names_eq (under_keyDir s b) h))

/-- A copy lies three names below the directory of all copies. -/
theorem under_blobPath (hs : IsExtension s.wrapper.suffix) (name : Option KeyName) (version : UInt32)
    {f : String} (hf : Fileable f) :
    (s.blobPath (name.map KeyName.text) version f).Under s.root
      [shownKeyName name, toString version, s.fileName f] := by
  have hversion := (under_keyDir s name).join (isPart_toString version)
  exact hversion.join (namesFile_of_fileable hs hf)

theorem blobPath_injective (hs : IsExtension s.wrapper.suffix) {a b : Option KeyName}
    {v v' : UInt32} {f g : String} (hf : Fileable f) (hg : Fileable g)
    (h : (s.blobPath (a.map KeyName.text) v f).parts =
      (s.blobPath (b.map KeyName.text) v' g).parts) : a = b ∧ v = v' ∧ f = g := by
  have hnames := (under_blobPath hs a v hf).names_eq (under_blobPath hs b v' hg) h
  simp only [List.cons.injEq, and_true] at hnames
  exact ⟨shownKeyName_injective hnames.1, toString_injective hnames.2.1,
    fileName_injective hnames.2.2⟩

end Store

/-! ## All names -/

open KeyFile in
/-- **Key names stay in their directory, and no two of them meet.** A text is either refused as a key
name by all that take one (for a command, for a key file, and in a key file that is loaded) or is taken
by all, and then leads one step down from any directory it is joined to. Bytes that are no text are
refused as well. Each key has a place of its own right below the directory of keys, the default key
among them, and each copy one three steps below the directory of copies. -/
theorem keyNames_apart :
    (∀ (w : Workplace) (n : String),
      (∃ flaw, w.keyPath { name := some n } = .error (.invalidKeyName n flaw) ∧
        (∀ t, (w.loadKey { name := some n }).Gives t
          (.error (.library (.invalidKeyName n flaw)))) ∧
        (∀ kf : KeyFile, kf.rename (some n) = .error (.invalidKeyName n flaw)) ∧
        ∀ (front : List TaggedField) (f : TaggedField) (rest : Bytes),
          (∀ g ∈ front, HeaderField g) → f.id = nameField → f.payload = utf8 n →
            ∃ cause, decode (naming front f rest) = .error (.malformed cause)) ∨
      (w.keyPath { name := some n } = .ok (w.config.keyFilesDir w.home / n) ∧
        (∀ kf : KeyFile, ∃ kf', kf.rename (some n) = .ok kf' ∧
          kf'.name.map KeyName.text = some n ∧ kf'.entries = kf.entries) ∧
        (∀ f : TaggedField, f.id = nameField → f.payload = utf8 n → HeaderField f) ∧
        ∀ dir : Path, (dir / n).Under dir [n])) ∧
    (∀ (front : List TaggedField) (f : TaggedField) (rest : Bytes),
      (∀ g ∈ front, HeaderField g) → f.id = nameField → ofUtf8? f.payload = none →
        ∃ cause, decode (naming front f rest) = .error (.malformed cause)) ∧
    (∀ (b : Bytes) (kf : KeyFile), decode b = .ok kf → ∃ header es, Grammatical b header es ∧
      lastPayload nameField header = kf.name.map (fun name => utf8 name.text) ∧
      ∀ f ∈ header, f.id = nameField →
        ∃ n, f.payload = utf8 n ∧ ∀ dir : Path, (dir / n).Under dir [n]) ∧
    (∀ (w : Workplace) (a : Option String) (p : Path), w.installedPath a = .ok p →
      p.Under (w.config.keyFilesDir w.home) [a.getD defaultKeyName] ∧
        ∀ b q, w.installedPath b = .ok q → p.parts = q.parts → a = b) ∧
    (∀ (s : Store) (a : Option KeyName),
      (s.keyDir (a.map KeyName.text)).Under (s.base / "keys") [shownKeyName a] ∧
        ∀ b : Option KeyName,
          (s.keyDir (a.map KeyName.text)).parts = (s.keyDir (b.map KeyName.text)).parts → a = b) ∧
    (∀ (w : Workplace) identities, IsExtension (w.store identities).wrapper.suffix) ∧
    (∀ (s : Store), IsExtension s.wrapper.suffix →
      ∀ (a : Option KeyName) (v : UInt32) (f : String), Fileable f →
        (s.blobPath (a.map KeyName.text) v f).Under (s.base / "keys")
            [shownKeyName a, toString v, f ++ "." ++ s.wrapper.suffix] ∧
          ∀ (b : Option KeyName) (v' : UInt32) (g : String), Fileable g →
            (s.blobPath (a.map KeyName.text) v f).parts =
              (s.blobPath (b.map KeyName.text) v' g).parts → a = b ∧ v = v' ∧ f = g) := by
  refine ⟨fun w n => ?_, fun front f rest hfront hid hnot => ?_, fun b kf hb => ?_,
    fun w a p hp => ⟨?_, fun b q hq => w.installedPath_injective hp hq⟩,
    fun s a => ⟨Store.under_keyDir s a, fun b => Store.keyDir_injective⟩, fun _ _ => isExtension_age,
    fun s hs a v f hf => ⟨Store.under_blobPath hs a v hf, fun b v' g hg =>
      Store.blobPath_injective hs hf hg⟩⟩
  · rcases KeyName.parse_cases n with ⟨flaw, hflaw, hparse⟩ | ⟨name, rfl, hparse⟩
    · refine .inl ⟨flaw, w.installedPath_of_flaw hparse, w.gives_loadKey_of_flaw hparse,
        fun kf => ?_, fun front f rest hfront hid hpayload => ?_⟩
      · rw [rename, hparse]
        rfl
      · refine decode_naming hfront hid (fun hname => ?_) rest
        obtain ⟨-, text, htext, hvalid⟩ := hname
        rw [hpayload, ofUtf8?_eq_some.mpr rfl] at htext
        cases htext
        rw [hvalid] at hflaw
        cases hflaw
    · refine .inr ⟨Store.installedPath_eq w (some name), fun kf => ?_, fun f hid hpayload => ?_,
        fun dir => Path.under_join dir (isPart_of_keyName name)⟩
      · refine ⟨{ kf with name := some name }, ?_, rfl, rfl⟩
        rw [rename, hparse]
        rfl
      · exact .inl ⟨hid, hpayload ▸ isName_utf8 name⟩
  · refine decode_naming hfront hid (fun hname => ?_) rest
    obtain ⟨-, text, htext, -⟩ := hname
    rw [hnot] at htext
    cases htext
  · obtain ⟨header, es, hgrammar, hdenotes⟩ := decode_eq_ok.mp hb
    refine ⟨header, es, hgrammar, hdenotes.name, fun f hf hid => ?_⟩
    rcases hgrammar.header_field f hf with ⟨-, -, text, htext, hvalid⟩ | hskip
    · exact ⟨text, ofUtf8?_eq_some.mp htext, fun dir =>
        Path.under_join dir (isPart_of_keyName ⟨text, hvalid⟩)⟩
    · exact absurd hskip (not_skippable_of_odd hid (by decide))
  · obtain ⟨name, rfl, hunder⟩ := w.under_installedPath hp
    rwa [getD_defaultKeyName]

/-- Two dots are no key name, and a file name can be made of them. -/
theorem keyNames_apart_dots :
    let w : Workplace := { env := fun _ => none, config := {} }
    (∃ flaw, w.keyPath { name := some ".." } = .error (.invalidKeyName ".." flaw)) ∧
      ((w.store []).blobPath none 0 "..").Under ((w.store []).base / "keys")
        ["default", "0", "...age"] := by
  intro w
  obtain ⟨hnames, -, -, -, -, hsuffix, hblobs⟩ := keyNames_apart
  refine ⟨?_, (hblobs (w.store []) (hsuffix w []) none 0 ".." ⟨by decide, by decide⟩).1⟩
  rcases hnames w ".." with ⟨flaw, hflaw, -⟩ | ⟨hok, -⟩
  · exact ⟨flaw, hflaw⟩
  · cases hok

end RepoSeal
