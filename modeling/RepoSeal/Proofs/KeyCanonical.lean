import RepoSeal.Proofs.KeyGrammar
import Mathlib.Algebra.Order.BigOperators.Group.List
import Mathlib.Algebra.Order.Monoid.Canonical.Basic
import Mathlib.Algebra.Order.Ring.Nat
import Mathlib.Data.List.Perm.Subperm

/-!
# RepoSeal — the written form of a key file

What is written for a key file follows the grammar, with no field that could be left out
(`grammatical_encode`). So it is read back as the same key file, and among all byte strings that are
read as that key file none is shorter (`encode_canonical`).
-/

namespace RepoSeal

open TaggedField

theorem length_encodeRow (fs : List TaggedField) :
    (encodeRow fs).length = (fs.map fun f => 8 + f.payload.length).sum := by
  simp [encodeRow, List.length_flatMap]

/-- A row is at least as long as any of its fields that are picked out. -/
theorem length_encodeRow_le {fs gs : List TaggedField} (hnodup : gs.Nodup) (hsub : gs ⊆ fs) :
    (encodeRow gs).length ≤ (encodeRow fs).length := by
  -- picked out in another order, they are a part of the row
  obtain ⟨row, hperm, hsublist⟩ := hnodup.subperm hsub
  rw [length_encodeRow, length_encodeRow, ← (hperm.map _).sum_eq]
  exact (hsublist.map _).sum_le_sum fun n _ => Nat.zero_le n

/-- A field is given by its id and its payload. -/
theorem mem_of_lastPayload_eq {id : UInt32} {b : Bytes} {fs : List TaggedField}
    (h : lastPayload id fs = some b) (f : TaggedField) (hid : f.id = id) (hpayload : f.payload = b) :
    f ∈ fs := by
  obtain ⟨fid, payload, hne, hlt⟩ := f
  obtain ⟨⟨gid, gpayload, hgne, hglt⟩, hg, hgid, hgpayload⟩ := mem_of_lastPayload h
  cases hid.trans hgid.symm
  cases hpayload.trans hgpayload.symm
  exact hg

/-! ## What is written for an entry -/

namespace KeyEntry

/-- The fields that are written for an entry. -/
def fields (e : KeyEntry) : List TaggedField :=
  [⟨versionField, be32 e.version, by decide, by rw [length_be32]; decide⟩,
    ⟨cipherKeyField, e.cipherKey.toList, by decide, by rw [e.cipherKey.length_toList]; decide⟩,
    ⟨digestKeyField, e.digestKey.toList, by decide, by rw [e.digestKey.length_toList]; decide⟩]

theorem encode_eq_encodeList (e : KeyEntry) : e.encode = encodeList e.fields := by
  simp only [encode, encodeList, fields, encodeRow, List.flatMap_cons, List.flatMap_nil,
    List.append_nil, List.append_assoc]
  rfl

theorem length_encode (e : KeyEntry) : e.encode.length = 128 := by
  rw [encode_eq_encodeList, encodeList, List.length_append, length_encodeRow]
  simp [fields, Field.endMark, e.cipherKey.length_toList, e.digestKey.length_toList]

theorem entryFields_fields (e : KeyEntry) : EntryFields e.fields where
  field := by
    intro f hf
    simp only [fields, List.mem_cons, List.not_mem_nil, or_false] at hf
    rcases hf with rfl | rfl | rfl
    · exact .inl ⟨rfl, rfl⟩
    · exact .inr (.inl ⟨rfl, e.cipherKey.length_toList⟩)
    · exact .inr (.inr (.inl ⟨rfl, e.digestKey.length_toList⟩))
  version := ⟨_, List.mem_cons_self, rfl⟩
  cipherKey := ⟨_, List.mem_cons_of_mem _ List.mem_cons_self, rfl⟩
  digestKey := ⟨_, List.mem_cons_of_mem _ (List.mem_cons_of_mem _ List.mem_cons_self), rfl⟩

theorem denotes_fields (e : KeyEntry) : Denotes e.fields e := ⟨rfl, rfl, rfl⟩

/-- The fields that are written for an entry stand in every list that is that entry. -/
theorem fields_subset {fs : List TaggedField} {e : KeyEntry} (h : Denotes fs e) : e.fields ⊆ fs := by
  intro f hf
  simp only [fields, List.mem_cons, List.not_mem_nil, or_false] at hf
  rcases hf with rfl | rfl | rfl
  · exact mem_of_lastPayload_eq h.version _ rfl rfl
  · exact mem_of_lastPayload_eq h.cipherKey _ rfl rfl
  · exact mem_of_lastPayload_eq h.digestKey _ rfl rfl

theorem nodup_fields (e : KeyEntry) : e.fields.Nodup := by
  -- their ids tell them apart, whatever the payloads are
  have hids : (e.fields.map TaggedField.id).Nodup := by
    show [versionField, cipherKeyField, digestKeyField].Nodup
    decide
  exact hids.of_map _

/-- No list that is an entry is shorter than what is written for the entry. -/
theorem length_encode_le {fs : List TaggedField} {e : KeyEntry} (h : Denotes fs e) :
    e.encode.length ≤ (encodeList fs).length := by
  have hrow := length_encodeRow_le e.nodup_fields (fields_subset h)
  rw [encode_eq_encodeList, encodeList, encodeList, List.length_append, List.length_append]
  omega

end KeyEntry

namespace KeyFile

variable {b : Bytes}

/-! ## What is written for a key file -/

theorem length_name_le (n : KeyName) : (utf8 n.text).length ≤ keyNameMaxLength :=
  (keyNameFlaw_eq_none.mp n.valid).2.2.2

/-- The fields that are written for the name of a key file. -/
def nameFields : Option KeyName → List TaggedField
  | none => []
  | some n => [⟨nameField, utf8 n.text, by decide, Nat.lt_of_le_of_lt (length_name_le n) (by decide)⟩]

/-- What is written for a key file follows the grammar. -/
theorem grammatical_encode (kf : KeyFile) :
    Grammatical kf.encode (nameFields kf.name) (kf.entries.map KeyEntry.fields) where
  bytes_eq := by
    have hname : encodeName kf.name ++ Field.endMark = encodeList (nameFields kf.name) := by
      cases kf.name with
      | none => rfl
      | some n =>
        rw [encodeList, nameFields, encodeRow_cons, encodeRow_nil, List.append_nil]
        rfl
    have hentries : kf.entries.flatMap KeyEntry.encode =
        encodeLists (kf.entries.map KeyEntry.fields) := by
      rw [encodeLists, List.flatMap_map]
      exact congrArg (kf.entries.flatMap ·) (funext KeyEntry.encode_eq_encodeList)
    rw [encode, List.append_assoc _ (encodeName kf.name), hname, hentries]
  header_field := by
    intro f hf
    cases hname : kf.name with
    | none =>
      rw [hname] at hf
      cases hf
    | some n =>
      rw [hname] at hf
      cases List.mem_singleton.mp hf
      exact .inl ⟨rfl, length_name_le n, n.text, ofUtf8?_eq_some.mpr rfl, n.valid⟩
  entry_fields := by
    intro fs hfs
    obtain ⟨e, -, rfl⟩ := List.mem_map.mp hfs
    exact e.entryFields_fields
  versions_distinct := by
    refine List.pairwise_map.mpr (kf.descending.imp fun {x y} hlt heq => ?_)
    have hversion : x.version = y.version := be32_injective (Option.some.inj heq)
    rw [hversion] at hlt
    exact UInt32.lt_irrefl _ hlt

theorem denotes_encode (kf : KeyFile) :
    Denotes (nameFields kf.name) (kf.entries.map KeyEntry.fields) kf where
  name := by cases kf.name <;> rfl
  mem := by
    intro e
    constructor
    · exact fun he => ⟨e.fields, List.mem_map_of_mem he, e.denotes_fields⟩
    · rintro ⟨fs, hfs, hfse⟩
      obtain ⟨x, hx, rfl⟩ := List.mem_map.mp hfs
      rw [hfse.unique x.denotes_fields]
      exact hx

theorem decode_encode (kf : KeyFile) : decode kf.encode = .ok kf :=
  decode_eq_ok.mpr ⟨_, _, kf.grammatical_encode, kf.denotes_encode⟩

/-! ## Adding entries in any order -/

/-- What adding entries comes to does not tell their order. -/
theorem addAll_eq_ok {kf kf' : KeyFile} {es : List KeyEntry} :
    es.foldlM add kf = .ok kf' ↔
      (es.map KeyEntry.version).Nodup ∧ (∀ e ∈ es, ∀ x ∈ kf.entries, x.version ≠ e.version) ∧
        kf'.name = kf.name ∧ ∀ x, x ∈ kf'.entries ↔ x ∈ kf.entries ∨ x ∈ es := by
  induction es generalizing kf with
  | nil =>
    constructor
    · intro h
      cases h
      simp
    · -- a key file is its name and its entries, so only one is left
      rintro ⟨-, -, hname, hmem⟩
      have hsame : kf' = kf := ext_of_mem hname fun x => by simpa using hmem x
      rw [hsame]
      rfl
  | cons e es ih =>
    rw [List.foldlM_cons, List.map_cons, List.nodup_cons]
    constructor
    · intro h
      cases hadd : kf.add e with
      | error err =>
        rw [hadd] at h
        cases h
      | ok kf₁ =>
        rw [hadd] at h
        obtain ⟨hnew, hname₁, hmem₁⟩ := add_eq_ok_iff.mp hadd
        obtain ⟨hnodup, hfresh, hname, hmem⟩ := ih.mp h
        refine ⟨⟨fun he => ?_, hnodup⟩, List.forall_mem_cons.mpr ⟨hnew, fun y hy x hx => ?_⟩,
          hname.trans hname₁, fun x => ?_⟩
        · obtain ⟨y, hy, hversion⟩ := List.mem_map.mp he
          exact hfresh y hy e ((hmem₁ e).mpr (.inl rfl)) hversion.symm
        · exact hfresh y hy x ((hmem₁ x).mpr (.inr hx))
        · rw [hmem, hmem₁, List.mem_cons]
          tauto
    · rintro ⟨⟨hnot, hnodup⟩, hfresh, hname, hmem⟩
      obtain ⟨hnew, hfresh⟩ := List.forall_mem_cons.mp hfresh
      obtain ⟨kf₁, hadd⟩ := exists_add hnew
      obtain ⟨-, hname₁, hmem₁⟩ := add_eq_ok_iff.mp hadd
      rw [hadd]
      -- the first entry is now one of those that the others must not repeat
      refine ih.mpr ⟨hnodup, fun y hy x hx => ?_, hname.trans hname₁.symm, fun x => ?_⟩
      · rcases (hmem₁ x).mp hx with rfl | hx
        · exact fun hversion => hnot (List.mem_map.mpr ⟨y, hy, hversion.symm⟩)
        · exact hfresh y hy x hx
      · rw [hmem, hmem₁, List.mem_cons]
        tauto

theorem addAll_perm {kf kf' : KeyFile} {es es' : List KeyEntry} (hperm : es.Perm es')
    (h : es.foldlM add kf = .ok kf') : es'.foldlM add kf = .ok kf' := by
  obtain ⟨hnodup, hfresh, hname, hmem⟩ := addAll_eq_ok.mp h
  refine addAll_eq_ok.mpr ⟨(hperm.map _).nodup_iff.mp hnodup, fun e he => ?_, hname, fun x => ?_⟩
  · exact hfresh e (hperm.mem_iff.mpr he)
  · rw [hmem, hperm.mem_iff]

/-! ## No shorter form -/

theorem length_encodeLists_ge {es : List (List TaggedField)}
    (hes : ∀ fs ∈ es, KeyEntry.EntryFields fs) : 128 * es.length ≤ (encodeLists es).length := by
  induction es with
  | nil => rfl
  | cons fs es ih =>
    obtain ⟨hfs, hes⟩ := List.forall_mem_cons.mp hes
    obtain ⟨e, hden, -⟩ := KeyEntry.exists_denotes hfs
    have hle := KeyEntry.length_encode_le hden
    have hrest := ih hes
    rw [KeyEntry.length_encode] at hle
    rw [encodeLists_cons, List.length_append, List.length_cons]
    omega

/-- Every entry of a key file takes a list of its own. -/
theorem length_entries_le {header : List TaggedField} {es : List (List TaggedField)} {kf : KeyFile}
    (hes : ∀ fs ∈ es, KeyEntry.EntryFields fs) (hkf : Denotes header es kf) :
    kf.entries.length ≤ es.length := by
  -- different entries come from different lists, for a list is one entry at most
  have hsub : kf.entries ⊆ es.filterMap fun fs => (KeyEntry.ofFields fs).toOption := by
    intro e he
    obtain ⟨fs, hfs, hden⟩ := (hkf.mem e).mp he
    refine List.mem_filterMap.mpr ⟨fs, hfs, ?_⟩
    rw [KeyEntry.ofFields_eq_ok.mpr ⟨hes fs hfs, hden⟩]
    rfl
  have hnodup : kf.entries.Nodup := kf.versions_nodup.of_map _
  exact (hnodup.subperm hsub).length_le.trans (List.length_filterMap_le _ _)

theorem length_nameFields_le {header : List TaggedField} {name : Option KeyName}
    (h : lastPayload nameField header = name.map fun n => utf8 n.text) :
    (encodeRow (nameFields name)).length ≤ (encodeRow header).length := by
  cases name with
  | none => exact Nat.zero_le _
  | some n =>
    refine length_encodeRow_le (List.nodup_singleton _) fun f hf => ?_
    cases List.mem_singleton.mp hf
    exact mem_of_lastPayload_eq h _ rfl rfl

/-- No byte string that is read as a key file is shorter than what is written for it. -/
theorem length_encode_le {header : List TaggedField} {es : List (List TaggedField)} {kf : KeyFile}
    (h : Grammatical b header es) (hkf : Denotes header es kf) : kf.encode.length ≤ b.length := by
  have hname := length_nameFields_le hkf.name
  have hcount := length_entries_le h.entry_fields hkf
  have hlists := length_encodeLists_ge h.entry_fields
  -- an entry is written in 128 bytes, and no list that is an entry has fewer
  have hentries :
      (encodeLists (kf.entries.map KeyEntry.fields)).length = 128 * kf.entries.length := by
    rw [encodeLists, List.flatMap_map, ← funext KeyEntry.encode_eq_encodeList, List.length_flatMap]
    simp [KeyEntry.length_encode, Nat.mul_comm]
  rw [h.bytes_eq, kf.grammatical_encode.bytes_eq]
  simp only [encodeList, List.length_append, hentries]
  omega

/-- **The written form of key files.** Every key file is written, and read back as it was; so different
key files are written differently, and the order in which entries were added does not show. Whatever is
read as a key file is at least as long as its written form, which is read as the same key file and
written again as it is. -/
theorem encode_canonical :
    (∀ kf : KeyFile, (∃ sink, kf.store {} = (.ok (), sink) ∧ sink.bytes = kf.encode) ∧
      decode kf.encode = .ok kf) ∧
    Function.Injective encode ∧
    (∀ (kf kf' : KeyFile) (es es' : List KeyEntry), es.Perm es' →
      es.foldlM add kf = .ok kf' → es'.foldlM add kf = .ok kf') ∧
    ∀ (b : Bytes) (kf : KeyFile), decode b = .ok kf →
      decode kf.encode = decode b ∧ (decode kf.encode).map encode = .ok kf.encode ∧
        kf.encode.length ≤ b.length := by
  refine ⟨fun kf => ⟨?_, kf.decode_encode⟩, fun x y h => ?_,
    fun kf kf' es es' hperm h => addAll_perm hperm h, fun b kf h => ?_⟩
  · refine ⟨(Sink.write {} kf.encode).2, ?_, ?_⟩
    · simp [store, Sink.write, Sink.room]
    · rw [Sink.bytes_write]
      simp [Sink.room, Sink.bytes]
  · -- what is written for both is read back as each of them
    have hdecode := x.decode_encode
    rw [h, y.decode_encode] at hdecode
    exact (Except.ok.inj hdecode).symm
  · obtain ⟨header, es, hb, hkf⟩ := decode_eq_ok.mp h
    rw [kf.decode_encode, h]
    exact ⟨rfl, rfl, length_encode_le hb hkf⟩

end KeyFile

end RepoSeal
