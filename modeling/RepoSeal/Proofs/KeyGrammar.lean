import RepoSeal.Proofs.KeyEntries

/-!
# RepoSeal — the grammar of key files

Which byte strings are key files, said without a parser (`Grammatical`), and which key file one of them
is (`Denotes`). Reading accepts the byte strings of the grammar and no others, and tells data of a newer
format from data that is broken (`decode_outcome`): data is of a newer format if the first thing in it
that is not understood is the version of the format or a field that a reader has to know.
-/

namespace RepoSeal.KeyFile

open Reader TaggedField

variable {i : Input} {σ : Input.Setting} {b rest : Bytes}

/-! ## Adding lists of fields -/

/-- Lists of fields that are entries, of different versions, none of which a key file has yet. -/
structure Addable (kf : KeyFile) (es : List (List TaggedField)) : Prop where
  entry_fields : ∀ fs ∈ es, KeyEntry.EntryFields fs
  distinct : es.Pairwise fun fs gs =>
    lastPayload KeyEntry.versionField fs ≠ lastPayload KeyEntry.versionField gs
  fresh : ∀ fs ∈ es, ∀ x ∈ kf.entries,
    lastPayload KeyEntry.versionField fs ≠ some (be32 x.version)

theorem addLists_cons_of_ok {kf : KeyFile} {fs : List TaggedField} {entry : KeyEntry}
    (h : KeyEntry.ofFields fs = .ok entry) (es : List (List TaggedField)) :
    kf.addLists (fs :: es) = kf.add entry >>= fun kf₁ => kf₁.addLists es := by
  rw [addLists_cons, h]
  rfl

/-- Where the first list is added, the others can be added to the result. -/
theorem addable_cons {kf kf₁ : KeyFile} {fs : List TaggedField} {entry : KeyEntry}
    {es : List (List TaggedField)} (hfields : KeyEntry.EntryFields fs)
    (hden : KeyEntry.Denotes fs entry) (hadd : kf.add entry = .ok kf₁) :
    Addable kf (fs :: es) ↔ Addable kf₁ es := by
  obtain ⟨hnew, -, hmem⟩ := add_eq_ok_iff.mp hadd
  constructor
  · rintro ⟨hall, hdistinct, hfresh⟩
    obtain ⟨hfs, hes⟩ := List.pairwise_cons.mp hdistinct
    refine ⟨(List.forall_mem_cons.mp hall).2, hes, fun gs hgs x hx => ?_⟩
    rcases (hmem x).mp hx with rfl | hx
    · exact fun heq => hfs gs hgs (hden.version.trans heq.symm)
    · exact (List.forall_mem_cons.mp hfresh).2 gs hgs x hx
  · rintro ⟨hall, hdistinct, hfresh⟩
    refine ⟨List.forall_mem_cons.mpr ⟨hfields, hall⟩,
      List.pairwise_cons.mpr ⟨fun gs hgs heq => ?_, hdistinct⟩,
      List.forall_mem_cons.mpr ⟨fun x hx heq => ?_, fun gs hgs x hx => ?_⟩⟩
    · -- the first list's entry is in the result, where the others are fresh
      exact hfresh gs hgs entry ((hmem entry).mpr (.inl rfl)) (heq.symm.trans hden.version)
    · exact hnew x hx (be32_injective (Option.some.inj (hden.version.symm.trans heq))).symm
    · exact hfresh gs hgs x ((hmem x).mpr (.inr hx))

theorem exists_addLists {kf : KeyFile} {es : List (List TaggedField)} (h : Addable kf es) :
    ∃ kf', kf.addLists es = .ok kf' := by
  induction es generalizing kf with
  | nil => exact ⟨kf, rfl⟩
  | cons fs es ih =>
    have hfields := (List.forall_mem_cons.mp h.entry_fields).1
    obtain ⟨entry, hden, hentry⟩ := KeyEntry.exists_denotes hfields
    -- versions are compared as written, as four bytes
    obtain ⟨kf₁, hadd⟩ : ∃ kf₁, kf.add entry = .ok kf₁ := by
      refine exists_add fun x hx hv => h.fresh fs List.mem_cons_self x hx ?_
      rw [hden.version, hv]
    obtain ⟨kf', hrest⟩ := ih ((addable_cons hfields hden hadd).mp h)
    refine ⟨kf', ?_⟩
    rw [addLists_cons_of_ok hentry, hadd]
    exact hrest

/-- What adding lists of fields leaves: the entries that were there, and one for each list. -/
theorem addable_of_addLists {kf kf' : KeyFile} {es : List (List TaggedField)}
    (h : kf.addLists es = .ok kf') :
    Addable kf es ∧ kf'.name = kf.name ∧
      ∀ e, e ∈ kf'.entries ↔ e ∈ kf.entries ∨ ∃ fs ∈ es, KeyEntry.Denotes fs e := by
  induction es generalizing kf with
  | nil =>
    cases h
    exact ⟨⟨by simp, .nil, by simp⟩, rfl, by simp⟩
  | cons fs es ih =>
    cases hentry : KeyEntry.ofFields fs with
    | error e =>
      rw [addLists_cons, hentry] at h
      cases h
    | ok entry =>
      obtain ⟨hfields, hden⟩ := KeyEntry.ofFields_eq_ok.mp hentry
      rw [addLists_cons_of_ok hentry] at h
      cases hadd : kf.add entry with
      | error e =>
        rw [hadd] at h
        cases h
      | ok kf₁ =>
        rw [hadd] at h
        obtain ⟨-, hname₁, hmem₁⟩ := add_eq_ok_iff.mp hadd
        obtain ⟨hrest, hname, hmem⟩ := ih h
        refine ⟨(addable_cons hfields hden hadd).mpr hrest, hname.trans hname₁, fun e => ?_⟩
        have hfs : KeyEntry.Denotes fs e ↔ e = entry :=
          ⟨fun he => he.unique hden, fun he => he ▸ hden⟩
        rw [hmem, hmem₁, List.exists_mem_cons_iff, hfs]
        tauto

/-- Adding lists fails at one of them: what it holds is refused, or its version is there already. -/
theorem exists_addLists_error {kf : KeyFile} {es : List (List TaggedField)} {e : Error}
    (h : kf.addLists es = .error e) :
    ∃ front fs back kf', es = front ++ fs :: back ∧ kf.addLists front = .ok kf' ∧
      (KeyEntry.ofFields fs = .error e ∨ ∃ cause, e = .malformed cause) := by
  induction es generalizing kf with
  | nil => cases h
  | cons fs es ih =>
    cases hentry : KeyEntry.ofFields fs with
    | error e' =>
      rw [addLists_cons, hentry] at h
      cases h
      exact ⟨[], fs, es, kf, rfl, rfl, .inl hentry⟩
    | ok entry =>
      rw [addLists_cons_of_ok hentry] at h
      cases hadd : kf.add entry with
      | error e' =>
        rw [hadd] at h
        cases h
        exact ⟨[], fs, es, kf, rfl, rfl, .inr ⟨_, (add_eq_error.mp hadd).1⟩⟩
      | ok kf₁ =>
        rw [hadd] at h
        obtain ⟨front, gs, back, kf', rfl, hfront, hgs⟩ := ih h
        refine ⟨fs :: front, gs, back, kf', rfl, ?_, hgs⟩
        rw [addLists_cons_of_ok hentry, hadd]
        exact hfront

/-! ## Reading a key file -/

theorem length_magic : magic.length = 12 := by decide

/-- What a key file begins with: the magic and the version of the format. -/
def preamble (version : UInt32) : Bytes := magic ++ be32 version

theorem exists_preamble (hb : 16 ≤ b.length) :
    ∃ p version rest, p.length = 12 ∧ b = p ++ be32 version ++ rest := by
  obtain ⟨version, hversion⟩ : ∃ version, (b.drop 12).take 4 = be32 version :=
    exists_be32 (by rw [List.length_take, List.length_drop]; omega)
  refine ⟨b.take 12, version, b.drop 16, by rw [List.length_take]; omega, ?_⟩
  rw [← hversion, List.append_assoc]
  calc b = b.take 12 ++ b.drop 12 := (List.take_append_drop 12 b).symm
    _ = b.take 12 ++ ((b.drop 12).take 4 ++ (b.drop 12).drop 4) := by
      rw [List.take_append_drop 4 (b.drop 12)]
    _ = _ := by rw [List.drop_drop]

theorem on_readPreamble {p : Bytes} {version : UInt32} (hp : p.length = 12)
    (hi : i.Delivers (p ++ be32 version ++ rest) σ) :
    ∃ i', i'.Delivers rest σ ∧
      readPreamble.on i =
        (if p ≠ magic then .error (.malformed .notKeyFile)
          else if version ≠ formatVersion then
            .error (.incompatible (.formatVersion version formatVersion))
          else .ok (), i') := by
  have hlen : (p ++ be32 version).length = 16 := by rw [List.length_append, hp, length_be32]
  obtain ⟨i', ht, hi'⟩ := take_of_append headerContext hi hlen
  have htake : (p ++ be32 version).take 12 = p := by rw [← hp, List.take_left]
  have hdrop : (p ++ be32 version).drop 12 = be32 version := by rw [← hp, List.drop_left]
  refine ⟨i', hi', ?_⟩
  rw [readPreamble, on_bind, ht]
  dsimp only
  rw [htake, hdrop, ofBe32_be32]
  by_cases hmagic : p ≠ magic
  · rw [if_pos hmagic, if_pos hmagic]
    rfl
  · rw [if_neg hmagic, if_neg hmagic]
    by_cases hversion : version ≠ formatVersion
    · rw [if_pos hversion, if_pos hversion]
      rfl
    · rw [if_neg hversion, if_neg hversion]
      rfl

theorem load_of_short (hi : i.Delivers b σ) (hb : b.length < 16) :
    (load i).1 = .error (σ.cutShort .taken headerContext) := by
  obtain ⟨i', ht⟩ := take_of_lt headerContext hi hb
  have hread : readPreamble.on i = (.error (σ.cutShort .taken headerContext), i') := by
    rw [readPreamble, on_bind, ht]
  rw [load, loadInto, hread]

theorem load_of_foreign {p : Bytes} {version : UInt32} (hp : p.length = 12) (hne : p ≠ magic)
    (hi : i.Delivers (p ++ be32 version ++ rest) σ) :
    (load i).1 = .error (.malformed .notKeyFile) := by
  obtain ⟨i', -, hread⟩ := on_readPreamble hp hi
  rw [load, loadInto, hread, if_pos hne]

theorem load_of_version {version : UInt32} (hne : version ≠ formatVersion)
    (hi : i.Delivers (preamble version ++ rest) σ) :
    (load i).1 = .error (.incompatible (.formatVersion version formatVersion)) := by
  obtain ⟨i', -, hread⟩ := on_readPreamble length_magic hi
  rw [load, loadInto, hread, if_neg (not_not.mpr rfl), if_pos hne]

theorem load_of_preamble (hi : i.Delivers (preamble formatVersion ++ rest) σ) :
    ∃ i', i'.Delivers rest σ ∧
      load i =
        match headerLayout.readFields none i' with
        | (.error e, i₁) => (.error e, i₁)
        | (.ok name, i₁) => readEntries (empty name) i₁ := by
  obtain ⟨i', hi', hread⟩ := on_readPreamble length_magic hi
  rw [if_neg (not_not.mpr rfl), if_neg (not_not.mpr rfl)] at hread
  refine ⟨i', hi', ?_⟩
  unfold load loadInto
  exact hread ▸ rfl

/-- A header that is not read decides the reading. -/
theorem load_of_headerError {e : Error}
    (he : ∀ j : Input, j.Delivers rest σ → (headerLayout.readFields none j).1 = .error e)
    (hi : i.Delivers (preamble formatVersion ++ rest) σ) : (load i).1 = .error e := by
  obtain ⟨i', hi', hload⟩ := load_of_preamble hi
  obtain ⟨i₁, hfail⟩ := eq_error_of_fst (he i' hi')
  rw [hload, hfail]

/-- Behind a header that is read the entries follow. -/
theorem load_of_header {header : List TaggedField} {name : Option KeyName}
    (hheader : headerLayout.absorbAll none header = .ok name)
    (hi : i.Delivers (preamble formatVersion ++ (encodeList header ++ rest)) σ) :
    ∃ i', i'.Delivers rest σ ∧ load i = readEntries (empty name) i' := by
  obtain ⟨i₁, hi₁, hload⟩ := load_of_preamble hi
  rw [encodeList, List.append_assoc] at hi₁
  have hread := headerLayout.readFields_yields none header (.closed rest) hi₁
  rw [Layout.readCutting, hheader] at hread
  obtain ⟨i', hok, hi'⟩ := hread.eq_ok
  exact ⟨i', hi', by rw [hload, hok]⟩

/-! ## The grammar -/

/-- A byte string that is a key file, with the fields of its header and of its entries. -/
structure Grammatical (b : Bytes) (header : List TaggedField) (es : List (List TaggedField)) :
    Prop where
  bytes_eq : b = magic ++ be32 formatVersion ++ encodeList header ++ encodeLists es
  header_field : ∀ f ∈ header, HeaderField f
  entry_fields : ∀ fs ∈ es, KeyEntry.EntryFields fs
  versions_distinct : es.Pairwise fun fs gs =>
    lastPayload KeyEntry.versionField fs ≠ lastPayload KeyEntry.versionField gs

/-- The key file that the fields of a byte string stand for: the last name counts, and each list is
one entry. -/
structure Denotes (header : List TaggedField) (es : List (List TaggedField)) (kf : KeyFile) :
    Prop where
  name : lastPayload nameField header = kf.name.map fun n => utf8 n.text
  mem : ∀ e, e ∈ kf.entries ↔ ∃ fs ∈ es, KeyEntry.Denotes fs e

theorem Denotes.unique {header : List TaggedField} {es : List (List TaggedField)} {a b : KeyFile}
    (ha : Denotes header es a) (hb : Denotes header es b) : a = b := by
  refine ext_of_mem ?_ fun e => (ha.mem e).trans (hb.mem e).symm
  have hname := ha.name.symm.trans hb.name
  cases hna : a.name with
  | none =>
    cases hnb : b.name with
    | none => rfl
    | some m =>
      rw [hna, hnb] at hname
      cases hname
  | some n =>
    cases hnb : b.name with
    | none =>
      rw [hna, hnb] at hname
      cases hname
    | some m =>
      rw [hna, hnb] at hname
      have hbytes : utf8 n.text = utf8 m.text := Option.some.inj hname
      -- a name can be told from its bytes, since decoding gives it back
      have htext : n = m := by
        have hn : decodeName (utf8 n.text) = .ok n := decodeName_eq_ok.mpr rfl
        have hm : decodeName (utf8 n.text) = .ok m := decodeName_eq_ok.mpr hbytes
        exact Except.ok.inj (hn.symm.trans hm)
      rw [htext]

/-- Data of a newer format: the first thing that is not understood is the version of the format, or
the id of a field in the header or in an entry, behind a part that follows the grammar. -/
inductive MeetsNewerFormat : Bytes → Prop
  | format (version : UInt32) (rest : Bytes) (h : version ≠ formatVersion) :
      MeetsNewerFormat (magic ++ be32 version ++ rest)
  | header (fs : List TaggedField) (id length : UInt32) (rest : Bytes)
      (hfs : ∀ f ∈ fs, HeaderField f) (odd : ¬ Even id.toNat) (unknown : id ≠ nameField) :
      MeetsNewerFormat
        (magic ++ be32 formatVersion ++ (encodeRow fs ++ (be32 id ++ be32 length ++ rest)))
  | entry (front : Bytes) (header : List TaggedField) (es : List (List TaggedField))
      (hfront : Grammatical front header es) (fs : List TaggedField) (id length : UInt32)
      (rest : Bytes) (hfs : ∀ f ∈ fs, KeyEntry.EntryField f) (odd : ¬ Even id.toNat)
      (unknown : id ≠ KeyEntry.versionField ∧ id ≠ KeyEntry.cipherKeyField ∧
        id ≠ KeyEntry.digestKeyField) :
      MeetsNewerFormat (front ++ (encodeRow fs ++ (be32 id ++ be32 length ++ rest)))

theorem header_unknownCritical {id : UInt32} :
    headerLayout.UnknownCritical id ↔ ¬ Even id.toNat ∧ id ≠ nameField := by
  rw [Layout.UnknownCritical, isCritical_iff, and_comm]
  refine and_congr_right fun _ => ⟨fun h hid => ?_, headerLayout_rule id⟩
  rw [hid] at h
  cases h

theorem entry_unknownCritical {id : UInt32} :
    KeyEntry.layout.UnknownCritical id ↔ ¬ Even id.toNat ∧ id ≠ KeyEntry.versionField ∧
      id ≠ KeyEntry.cipherKeyField ∧ id ≠ KeyEntry.digestKeyField := by
  rw [Layout.UnknownCritical, isCritical_iff, and_comm]
  refine and_congr_right fun _ => ⟨fun h => ⟨?_, ?_, ?_⟩,
    fun ⟨hv, hc, hd⟩ => KeyEntry.layout_rule_of_ne hv hc hd⟩
  all_goals
    rintro rfl
    cases h

theorem odd_ne_endId {id : UInt32} (h : ¬ Even id.toNat) : id ≠ Field.endId := by
  rintro rfl
  exact h (by decide)

/-- The bytes of a header and of entries follow the grammar if all of them are absorbed. -/
theorem grammatical_of_ok {header : List TaggedField} {es : List (List TaggedField)}
    {name : Option KeyName} {kf : KeyFile} (hheader : headerLayout.absorbAll none header = .ok name)
    (hadd : (empty name).addLists es = .ok kf) :
    Grammatical (magic ++ be32 formatVersion ++ encodeList header ++ encodeLists es) header es ∧
      Denotes header es kf := by
  have hfield : ∀ f ∈ header, HeaderField f := fun f hf =>
    let ⟨st, st', hst⟩ := headerLayout.absorb_of_mem hheader hf
    (header_absorb_isOk f st).mp ⟨st', hst⟩
  obtain ⟨name', habsorb, hlast⟩ := header_absorbAll hfield
  cases habsorb.symm.trans hheader
  obtain ⟨haddable, hname, hmem⟩ := addable_of_addLists hadd
  refine ⟨⟨rfl, hfield, haddable.entry_fields, haddable.distinct⟩, ?_, fun e => ?_⟩
  · rw [hlast, hname]
    rfl
  · rw [hmem]
    simp [empty]

theorem exists_denotes {b : Bytes} {header : List TaggedField} {es : List (List TaggedField)}
    (h : Grammatical b header es) :
    ∃ name kf, headerLayout.absorbAll none header = .ok name ∧
      (empty name).addLists es = .ok kf ∧ Denotes header es kf := by
  obtain ⟨name, habsorb, hlast⟩ := header_absorbAll h.header_field
  have haddable : Addable (empty name) es :=
    ⟨h.entry_fields, h.versions_distinct, fun _ _ x hx => absurd hx List.not_mem_nil⟩
  obtain ⟨kf, hadd⟩ := exists_addLists haddable
  exact ⟨name, kf, habsorb, hadd, (grammatical_of_ok habsorb hadd).2⟩

/-! ### What follows the grammar is read -/

/-- Behind the bytes of a key file reading goes on with its next entry. -/
theorem load_of_front (hσ : σ.Quiet) {front : Bytes} {header : List TaggedField}
    {es : List (List TaggedField)} {kf : KeyFile} (h : Grammatical front header es)
    (hkf : Denotes header es kf) (hi : i.Delivers (front ++ rest) σ) :
    ∃ i', i'.Delivers rest σ ∧ load i = readEntries kf i' := by
  obtain ⟨name, kf', hheader, hadd, hkf'⟩ := exists_denotes h
  cases hkf'.unique hkf
  have hbytes : front ++ rest =
      preamble formatVersion ++ (encodeList header ++ (encodeLists es ++ rest)) := by
    rw [h.bytes_eq, preamble]
    simp only [List.append_assoc]
  rw [hbytes] at hi
  obtain ⟨i₁, hi₁, hload⟩ := load_of_header hheader hi
  obtain ⟨i', hi', hread⟩ := readEntries_of_lists hσ hadd hi₁
  exact ⟨i', hi', hload.trans hread⟩

theorem load_of_grammatical (hσ : σ.Quiet) {header : List TaggedField}
    {es : List (List TaggedField)} {kf : KeyFile} (h : Grammatical b header es)
    (hkf : Denotes header es kf) (hi : i.Delivers b σ) :
    (load i).1 = closeWith σ .ended kf := by
  rw [← List.append_nil b] at hi
  obtain ⟨i', hi', hload⟩ := load_of_front hσ h hkf hi
  rw [hload]
  exact readEntries_of_nil hσ kf hi'

theorem load_of_meetsNewerFormat (hσ : σ.Quiet) (h : MeetsNewerFormat b) (hi : i.Delivers b σ) :
    ∃ cause, (load i).1 = .error (.incompatible cause) := by
  cases h with
  | format version rest hversion => exact ⟨_, load_of_version hversion hi⟩
  | header fs id length rest hfs hodd hunknown =>
    obtain ⟨name, hname, -⟩ := header_absorbAll hfs
    have hhead := headerLayout.headError?_of_unknownCritical
      (header_unknownCritical.mpr ⟨hodd, hunknown⟩) length
    refine ⟨_, load_of_headerError (e := .incompatible (.criticalField headerLayout.context id))
      (fun j hj => ?_) hi⟩
    exact headerLayout.readFields_of_headError none (odd_ne_endId hodd) hname hhead hj
  | entry front header es hfront fs id length rest hfs hodd hunknown =>
    -- what follows the grammar is read as usual, up to the list with the field in it
    obtain ⟨-, kf, -, -, hkf⟩ := exists_denotes hfront
    obtain ⟨i₁, hi₁, hload⟩ := load_of_front hσ hfront hkf hi
    have hhead := KeyEntry.layout.headError?_of_unknownCritical
      (entry_unknownCritical.mpr ⟨hodd, hunknown⟩) length
    refine ⟨.criticalField KeyEntry.layout.context id, ?_⟩
    rw [hload]
    exact readEntries_of_headError hσ kf (odd_ne_endId hodd) (KeyEntry.entry_absorbAll hfs) hhead hi₁

/-! ### Everything else is refused -/

/-- What data is refused for: it is of a newer format, it is broken, or it ends too early. -/
inductive Refused (b : Bytes) (σ : Input.Setting) : Error → Prop
  | newer (h : MeetsNewerFormat b) (cause : Incompatibility) : Refused b σ (.incompatible cause)
  | malformed (cause : Malformation) : Refused b σ (.malformed cause)
  | cutShort (how : Passage) (context : String) : Refused b σ (σ.cutShort how context)

theorem refused_of_header {fs : List TaggedField} {tail : FieldTail} {e : Error}
    (h : headerLayout.readCutting σ none fs tail = .error e) :
    Refused (magic ++ be32 formatVersion ++ (encodeRow fs ++ tail.bytes)) σ e := by
  rcases headerLayout.refusal_of_readCutting h with
    ⟨front, id, length, rest, hb, ⟨st, hst⟩, he⟩ | ⟨how, rfl⟩
  · cases he with
    | flaw _ cause => exact .malformed cause
    | critical hcritical =>
      obtain ⟨hodd, hunknown⟩ := header_unknownCritical.mp hcritical
      rw [hb]
      refine .newer (.header front id length rest (fun f hf => ?_) hodd hunknown) _
      obtain ⟨st₁, st₂, hf'⟩ := headerLayout.absorb_of_mem hst hf
      exact (header_absorb_isOk f st₁).mp ⟨st₂, hf'⟩
  · exact .cutShort how _

/-- A list of fields that is refused, behind a part that follows the grammar. -/
theorem refused_of_entry {front : Bytes} {header : List TaggedField} {es : List (List TaggedField)}
    (hfront : Grammatical front header es) {fs : List TaggedField} {tail : FieldTail} {e : Error}
    (h : KeyEntry.layout.readCutting σ {} fs tail = .error e) :
    Refused (front ++ (encodeRow fs ++ tail.bytes)) σ e := by
  rcases KeyEntry.layout.refusal_of_readCutting h with
    ⟨row, id, length, rest, hb, ⟨st, hst⟩, he⟩ | ⟨how, rfl⟩
  · cases he with
    | flaw _ cause => exact .malformed cause
    | critical hcritical =>
      obtain ⟨hodd, hunknown⟩ := entry_unknownCritical.mp hcritical
      rw [hb]
      refine .newer (.entry front header es hfront row id length rest (fun f hf => ?_) hodd
        hunknown) _
      obtain ⟨st₁, st₂, hf'⟩ := KeyEntry.layout.absorb_of_mem hst hf
      exact KeyEntry.entry_absorb_isOk f st₁ ⟨st₂, hf'⟩
  · exact .cutShort how _

/-- A row of entries that is refused. -/
theorem refused_of_addLists {header : List TaggedField} {es : List (List TaggedField)}
    {name : Option KeyName} {e : Error} (hheader : headerLayout.absorbAll none header = .ok name)
    (h : (empty name).addLists es = .error e) (rest : Bytes) :
    Refused (magic ++ be32 formatVersion ++ encodeList header ++ (encodeLists es ++ rest)) σ e := by
  obtain ⟨front, fs, back, kf', rfl, hfront, hfs⟩ := exists_addLists_error h
  rcases hfs with hfs | ⟨cause, rfl⟩
  · cases habsorb : KeyEntry.layout.absorbAll {} fs with
    | ok draft =>
      -- only a field that is missing is left as a reason
      rw [KeyEntry.ofFields, habsorb] at hfs
      replace hfs : draft.whole = .error e := hfs
      unfold KeyEntry.Draft.whole at hfs
      split at hfs
      · cases hfs
      · cases hfs
        exact .malformed _
    | error e' =>
      -- the rest of the row is what stands behind the list
      rw [KeyEntry.ofFields, habsorb] at hfs
      cases hfs
      have hcut : KeyEntry.layout.readCutting σ {} fs (.closed (encodeLists back ++ rest)) =
          .error e := by
        rw [Layout.readCutting, habsorb]
        rfl
      have hrefused := refused_of_entry (grammatical_of_ok hheader hfront).1 hcut
      have hbytes : magic ++ be32 formatVersion ++ encodeList header ++
          (encodeLists (front ++ fs :: back) ++ rest) =
          magic ++ be32 formatVersion ++ encodeList header ++ encodeLists front ++
            (encodeRow fs ++ (FieldTail.closed (encodeLists back ++ rest)).bytes) := by
        rw [encodeLists_append, encodeLists_cons, FieldTail.bytes, encodeList]
        simp only [encodeList, List.append_assoc]
      rw [hbytes]
      exact hrefused
  · exact .malformed cause

/-- What loading comes to behind a header that is read. -/
theorem load_cases_of_header (hσ : σ.Quiet) {header : List TaggedField} {name : Option KeyName}
    (hheader : headerLayout.absorbAll none header = .ok name)
    (hi : i.Delivers (magic ++ be32 formatVersion ++ encodeList header ++ rest) σ) :
    (∃ es kf, Grammatical (magic ++ be32 formatVersion ++ encodeList header ++ rest) header es ∧
      Denotes header es kf ∧ (load i).1 = closeWith σ .ended kf) ∨
      ∃ e, Refused (magic ++ be32 formatVersion ++ encodeList header ++ rest) σ e ∧
        (load i).1 = .error e := by
  -- what adding the row comes to, and only then the tail
  obtain ⟨es, tail, rfl⟩ := exists_entriesCutting rest
  rw [List.append_assoc] at hi
  obtain ⟨i₁, hi₁, hload⟩ := load_of_header hheader hi
  rw [hload, readEntries_result hσ es tail _ hi₁]
  cases hadd : (empty name).addLists es with
  | error e => exact .inr ⟨e, refused_of_addLists hheader hadd _, rfl⟩
  | ok kf =>
    obtain ⟨hfront, hkf⟩ := grammatical_of_ok hheader hadd
    cases tail with
    | ended =>
      refine .inl ⟨es, kf, ?_, hkf, rfl⟩
      rw [EntriesTail.bytes, List.append_nil]
      exact hfront
    | cut fs tail hopen hne =>
      obtain ⟨e, he⟩ := exists_readCutting_error σ fs hopen
      refine .inr ⟨e, ?_, ?_⟩
      · rw [← List.append_assoc]
        exact refused_of_entry hfront he
      · show (KeyEntry.layout.readCutting σ {} fs tail >>= fun _ => .ok kf) = _
        rw [he]
        rfl

/-- **What loading comes to.** Either the data is a key file, and then what stands behind it counts,
or it is refused. -/
theorem load_cases (hσ : σ.Quiet) (hi : i.Delivers b σ) :
    (∃ header es kf, Grammatical b header es ∧ Denotes header es kf ∧
      (load i).1 = closeWith σ .ended kf) ∨
      ∃ e, Refused b σ e ∧ (load i).1 = .error e := by
  -- from the front: the preamble, the header and the entries, each with its own ways to be refused
  by_cases hshort : b.length < 16
  · exact .inr ⟨_, .cutShort .taken _, load_of_short hi hshort⟩
  obtain ⟨p, version, rest, hp, rfl⟩ := exists_preamble (Nat.le_of_not_lt hshort)
  by_cases hmagic : p = magic
  case neg => exact .inr ⟨_, .malformed _, load_of_foreign hp hmagic hi⟩
  by_cases hversion : version = formatVersion
  case neg =>
    rw [hmagic] at hi ⊢
    exact .inr ⟨_, .newer (.format version rest hversion) _, load_of_version hversion hi⟩
  rw [hmagic, hversion] at hi ⊢
  obtain ⟨header, tail, rfl⟩ := exists_cutting rest
  cases hcut : headerLayout.readCutting σ none header tail with
  | error e =>
    refine .inr ⟨e, refused_of_header hcut, load_of_headerError (fun j hj => ?_) hi⟩
    have hread := headerLayout.readFields_yields none header tail hj
    rw [hcut] at hread
    exact hread
  | ok r =>
    obtain ⟨name, rest⟩ := r
    obtain ⟨hheader, rfl⟩ := headerLayout.readCutting_eq_ok hcut
    -- the end mark that closes the row of fields makes it the header
    have hbytes : magic ++ be32 formatVersion ++
        (encodeRow header ++ (FieldTail.closed rest).bytes) =
        magic ++ be32 formatVersion ++ encodeList header ++ rest := by
      rw [FieldTail.bytes, encodeList]
      simp only [List.append_assoc]
    rw [hbytes] at hi ⊢
    rcases load_cases_of_header hσ hheader hi with ⟨es, kf, h⟩ | h
    · exact .inl ⟨header, es, kf, h⟩
    · exact .inr h

/-! ## Byte strings -/

/-- A byte string is read as the key file that it stands for. -/
theorem decode_eq_ok {b : Bytes} {kf : KeyFile} :
    decode b = .ok kf ↔ ∃ header es, Grammatical b header es ∧ Denotes header es kf := by
  have hi := Input.delivers_ofBytes b
  constructor
  · intro h
    rcases load_cases Input.Setting.quiet_memory hi with ⟨header, es, kf', hb, hkf', hok⟩ | ⟨e, -, he⟩
    · have hsame : kf' = kf := Except.ok.inj (hok.symm.trans h)
      exact ⟨header, es, hb, hsame ▸ hkf'⟩
    · cases he.symm.trans h
  · rintro ⟨header, es, hb, hkf⟩
    exact load_of_grammatical Input.Setting.quiet_memory hb hkf hi

/-- **What decoding accepts, and what it tells about everything else.** The byte strings of the grammar
are accepted, each as the one key file that it stands for. Any other is incompatible if it is of a newer
format, and malformed if not. -/
theorem decode_outcome (b : Bytes) :
    ((∃ kf, decode b = .ok kf) ↔ ∃ header es, Grammatical b header es) ∧
    (∀ kf, decode b = .ok kf ↔ ∃ header es, Grammatical b header es ∧ Denotes header es kf) ∧
    ((∃ cause, decode b = .error (.incompatible cause)) ↔ MeetsNewerFormat b) ∧
    ((∃ cause, decode b = .error (.malformed cause)) ↔
      (¬ ∃ header es, Grammatical b header es) ∧ ¬ MeetsNewerFormat b) := by
  have hi := Input.delivers_ofBytes b
  have hok : (∃ kf, decode b = .ok kf) ↔ ∃ header es, Grammatical b header es := by
    constructor
    · rintro ⟨kf, h⟩
      obtain ⟨header, es, hb, -⟩ := decode_eq_ok.mp h
      exact ⟨header, es, hb⟩
    · rintro ⟨header, es, hb⟩
      obtain ⟨-, kf, -, -, hkf⟩ := exists_denotes hb
      exact ⟨kf, decode_eq_ok.mpr ⟨header, es, hb, hkf⟩⟩
  have hnewer : MeetsNewerFormat b → ∃ cause, decode b = .error (.incompatible cause) := fun h =>
    load_of_meetsNewerFormat Input.Setting.quiet_memory h hi
  refine ⟨hok, fun kf => decode_eq_ok, ⟨fun ⟨cause, h⟩ => ?_, hnewer⟩, ⟨fun ⟨cause, h⟩ => ?_, ?_⟩⟩
  · rcases load_cases Input.Setting.quiet_memory hi with ⟨-, -, kf, -, -, hkf⟩ | ⟨e, hrefused, he⟩
    · cases hkf.symm.trans h
    · cases he.symm.trans h
      cases hrefused with
      | newer hb _ => exact hb
  · constructor
    · rw [← hok]
      rintro ⟨kf, hkf⟩
      cases hkf.symm.trans h
    · intro hb
      obtain ⟨cause', he⟩ := hnewer hb
      cases he.symm.trans h
  · rintro ⟨hnot, hnotNewer⟩
    rcases load_cases Input.Setting.quiet_memory hi with
      ⟨header, es, -, hb, -⟩ | ⟨e, hrefused, he⟩
    · exact absurd ⟨header, es, hb⟩ hnot
    · cases hrefused with
      | newer hb _ => exact absurd hb hnotNewer
      | malformed cause => exact ⟨cause, he⟩
      | cutShort how context => exact ⟨_, he⟩

end RepoSeal.KeyFile
