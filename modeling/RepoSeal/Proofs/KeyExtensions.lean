import RepoSeal.Proofs.KeyCanonical
import Mathlib.Data.List.Forall2

/-!
# RepoSeal — key files of newer programs

A newer program may put fields into a key file that an older one does not know. Between any two fields,
in the header and in every entry, a field with an even id can be put in without changing what is read
(`Padded`, `Extended`): none of the ids that count is even. A field with an odd id that is not known
there, or one that is too long to be passed over, is refused on account of its head alone, so nothing
behind the head can change that (`decode_of_refusedHead`).
-/

namespace RepoSeal

open TaggedField

/-- The first field of a row counts only if there is no other of its kind. -/
theorem TaggedField.lastPayload_cons (id : UInt32) (f : TaggedField) (fs : List TaggedField) :
    lastPayload id (f :: fs) =
      (lastPayload id fs).or (if f.id = id then some f.payload else none) := by
  rw [lastPayload, lastPayload, List.reverse_cons, List.find?_append]
  by_cases hid : f.id = id <;> cases fs.reverse.find? (·.id = id) <;> simp [hid]

/-! ## Rows with fields put in -/

/-- `Padded fs gs`: the row `gs` is the row `fs` with fields put in that a reader may pass over. -/
inductive Padded : List TaggedField → List TaggedField → Prop
  | nil : Padded [] []
  | keep (f : TaggedField) {fs gs : List TaggedField} (h : Padded fs gs) : Padded (f :: fs) (f :: gs)
  | insert {f : TaggedField} (hf : f.Skippable) {fs gs : List TaggedField} (h : Padded fs gs) :
      Padded fs (f :: gs)

namespace Padded

variable {fs gs : List TaggedField}

theorem refl (fs : List TaggedField) : Padded fs fs := by
  induction fs with
  | nil => exact .nil
  | cons f fs ih => exact .keep f ih

instance : Std.Refl Padded := ⟨refl⟩

theorem insert_append {f : TaggedField} (hf : f.Skippable) (front back : List TaggedField) :
    Padded (front ++ back) (front ++ f :: back) := by
  induction front with
  | nil => exact .insert hf (refl back)
  | cons g front ih => exact .keep g ih

theorem mem_of_mem (h : Padded fs gs) {f : TaggedField} (hf : f ∈ fs) : f ∈ gs := by
  induction h with
  | nil => exact hf
  | keep g _ ih =>
    rcases List.mem_cons.mp hf with rfl | hf
    · exact List.mem_cons_self
    · exact List.mem_cons_of_mem g (ih hf)
  | insert _ _ ih => exact List.mem_cons_of_mem _ (ih hf)

/-- What is not in the row itself was put in. -/
theorem mem_cases (h : Padded fs gs) {f : TaggedField} (hf : f ∈ gs) : f ∈ fs ∨ f.Skippable := by
  induction h with
  | nil => exact .inl hf
  | keep g _ ih =>
    rcases List.mem_cons.mp hf with rfl | hf
    · exact .inl List.mem_cons_self
    · exact (ih hf).imp_left (List.mem_cons_of_mem g)
  | insert hg _ ih =>
    rcases List.mem_cons.mp hf with rfl | hf
    · exact .inr hg
    · exact ih hf

/-- A field that was put in is never the last one of a kind that counts. -/
theorem lastPayload_eq (h : Padded fs gs) (id : UInt32) (hodd : ¬ Even id.toNat) :
    lastPayload id gs = lastPayload id fs := by
  induction h with
  | nil => rfl
  | keep f _ ih => rw [lastPayload_cons, lastPayload_cons, ih]
  | @insert f hf _ _ _ ih =>
    have hid : ¬ f.id = id := fun hid => not_skippable_of_odd hid hodd hf
    rw [lastPayload_cons, if_neg hid, Option.or_none, ih]

end Padded

/-- A field that its layout does not know and that is too long to be passed over. -/
theorem Layout.headError?_of_tooLong {τ : Type} (l : Layout τ) {id length : UInt32}
    (hrule : l.rule id = none) (heven : Even id.toNat) (hlong : 2 ^ 20 < length.toNat) :
    l.headError? id length = some (.malformed (.fieldTooLong l.context id length)) := by
  have hcritical : ¬ Field.isCritical id = true := fun h => (isCritical_iff id).mp h heven
  have hlength : Field.maxPassedLength < length := UInt32.lt_iff_toNat_lt.mpr hlong
  rw [headError?, hrule]
  dsimp only
  rw [if_neg hcritical, if_pos hlength]

namespace KeyEntry

variable {fs gs : List TaggedField}

theorem entryFields_padded (h : Padded fs gs) (hfs : EntryFields fs) : EntryFields gs where
  field f hf := (h.mem_cases hf).elim (hfs.field f) fun hskip => .inr (.inr (.inr hskip))
  version := let ⟨f, hf, hid⟩ := hfs.version; ⟨f, h.mem_of_mem hf, hid⟩
  cipherKey := let ⟨f, hf, hid⟩ := hfs.cipherKey; ⟨f, h.mem_of_mem hf, hid⟩
  digestKey := let ⟨f, hf, hid⟩ := hfs.digestKey; ⟨f, h.mem_of_mem hf, hid⟩

theorem denotes_padded (h : Padded fs gs) (e : KeyEntry) : Denotes gs e ↔ Denotes fs e := by
  have hv := h.lastPayload_eq versionField (by decide)
  have hc := h.lastPayload_eq cipherKeyField (by decide)
  have hd := h.lastPayload_eq digestKeyField (by decide)
  constructor
  · rintro ⟨hv', hc', hd'⟩
    exact ⟨hv ▸ hv', hc ▸ hc', hd ▸ hd'⟩
  · rintro ⟨hv', hc', hd'⟩
    exact ⟨hv.trans hv', hc.trans hc', hd.trans hd'⟩

end KeyEntry

namespace KeyFile

open List (Forall₂)

variable {b b' : Bytes} {header header' : List TaggedField} {es es' : List (List TaggedField)}

/-- The bytes of a key file whose header and entries have the given fields. -/
def bytesOf (header : List TaggedField) (es : List (List TaggedField)) : Bytes :=
  magic ++ be32 formatVersion ++ encodeList header ++ encodeLists es

/-- `Extended b b'`: the bytes `b'` are those of a key file `b` with fields put into its header and its
entries that a reader may pass over, any number of them in any places. -/
inductive Extended (b : Bytes) : Bytes → Prop
  | padded {header header' : List TaggedField} {es es' : List (List TaggedField)}
      (hb : Grammatical b header es) (hheader : Padded header header') (hes : Forall₂ Padded es es') :
      Extended b (bytesOf header' es')

/-! ### What is put in does not count -/

theorem entryFields_of_forall₂ (hes : Forall₂ Padded es es')
    (h : ∀ fs ∈ es, KeyEntry.EntryFields fs) : ∀ fs ∈ es', KeyEntry.EntryFields fs := by
  induction hes with
  | nil => exact h
  | cons hfs _ ih =>
    obtain ⟨hfirst, hrest⟩ := List.forall_mem_cons.mp h
    exact List.forall_mem_cons.mpr ⟨KeyEntry.entryFields_padded hfs hfirst, ih hrest⟩

/-- The versions of the entries stay as they are, in the same order. -/
theorem map_version_of_forall₂ (hes : Forall₂ Padded es es') :
    es'.map (lastPayload KeyEntry.versionField) = es.map (lastPayload KeyEntry.versionField) := by
  induction hes with
  | nil => rfl
  | cons hfs _ ih => rw [List.map_cons, List.map_cons, hfs.lastPayload_eq _ (by decide), ih]

theorem exists_denotes_of_forall₂ (hes : Forall₂ Padded es es') (e : KeyEntry) :
    (∃ fs ∈ es', KeyEntry.Denotes fs e) ↔ ∃ fs ∈ es, KeyEntry.Denotes fs e := by
  induction hes with
  | nil => exact Iff.rfl
  | cons hfs _ ih =>
    rw [List.exists_mem_cons_iff, List.exists_mem_cons_iff, KeyEntry.denotes_padded hfs, ih]

theorem grammatical_padded (hb : Grammatical b header es) (hheader : Padded header header')
    (hes : Forall₂ Padded es es') : Grammatical (bytesOf header' es') header' es' where
  bytes_eq := rfl
  header_field f hf := (hheader.mem_cases hf).elim (hb.header_field f) .inr
  entry_fields := entryFields_of_forall₂ hes hb.entry_fields
  versions_distinct := by
    have hdistinct := List.pairwise_map.mpr hb.versions_distinct
    rw [← map_version_of_forall₂ hes] at hdistinct
    exact List.pairwise_map.mp hdistinct

theorem denotes_padded {kf : KeyFile} (hheader : Padded header header')
    (hes : Forall₂ Padded es es') (hkf : Denotes header es kf) : Denotes header' es' kf where
  name := (hheader.lastPayload_eq nameField (by decide)).trans hkf.name
  mem e := (hkf.mem e).trans (exists_denotes_of_forall₂ hes e).symm

theorem Extended.decode_eq {kf : KeyFile} (hext : Extended b b') (h : decode b = .ok kf) :
    decode b' = .ok kf := by
  cases hext with
  | padded hb hheader hes =>
    -- what `b` is read as is what its fields stand for
    obtain ⟨-, kf', -, -, hkf'⟩ := exists_denotes hb
    cases (decode_eq_ok.mpr ⟨_, _, hb, hkf'⟩).symm.trans h
    exact decode_eq_ok.mpr ⟨_, _, grammatical_padded hb hheader hes, denotes_padded hheader hes hkf'⟩

theorem Extended.refl {kf : KeyFile} (h : decode b = .ok kf) : Extended b b := by
  obtain ⟨header, es, hb, -⟩ := decode_eq_ok.mp h
  have hext := Extended.padded hb (.refl header) (List.forall₂_refl es)
  rwa [bytesOf, ← hb.bytes_eq] at hext

/-! ## Places in a key file where a field can stand -/

/-- The two kinds of lists of fields in a key file. -/
inductive Level
  | header
  | entry
deriving DecidableEq, Repr

namespace Level

/-- How a list is called in errors. -/
def context : Level → String
  | .header => headerContext
  | .entry => KeyEntry.context

/-- The ids that are known in a list. -/
def known : Level → List UInt32
  | .header => [nameField]
  | .entry => [KeyEntry.versionField, KeyEntry.cipherKeyField, KeyEntry.digestKeyField]

/-- What a field in a list is refused for on account of its head alone. -/
def headError? : Level → UInt32 → UInt32 → Option Error
  | .header => headerLayout.headError?
  | .entry => KeyEntry.layout.headError?

theorem headError?_of_unknown {level : Level} {id : UInt32} (hodd : ¬ Even id.toNat)
    (hid : id ∉ level.known) (length : UInt32) :
    level.headError? id length = some (.incompatible (.criticalField level.context id)) := by
  cases level with
  | header =>
    have hne : id ≠ nameField := fun heq => hid (List.mem_singleton.mpr heq)
    exact headerLayout.headError?_of_unknownCritical (header_unknownCritical.mpr ⟨hodd, hne⟩) length
  | entry =>
    simp only [known, List.mem_cons, List.not_mem_nil, or_false, not_or] at hid
    exact KeyEntry.layout.headError?_of_unknownCritical (entry_unknownCritical.mpr ⟨hodd, hid⟩) length

theorem headError?_of_tooLong {level : Level} {id length : UInt32} (heven : Even id.toNat)
    (hlong : 2 ^ 20 < length.toNat) :
    level.headError? id length = some (.malformed (.fieldTooLong level.context id length)) := by
  -- the ids that are known are odd
  have hne : ∀ {known : UInt32}, ¬ Even known.toNat → id ≠ known := fun hodd hid => hodd (hid ▸ heven)
  cases level with
  | header =>
    exact headerLayout.headError?_of_tooLong (headerLayout_rule id (hne (by decide))) heven hlong
  | entry =>
    exact KeyEntry.layout.headError?_of_tooLong
      (KeyEntry.layout_rule_of_ne (hne (by decide)) (hne (by decide)) (hne (by decide))) heven hlong

end Level

/-- `Boundary b level front back`: between `front` and `back` a field of a list could stand in the key
file `b`, in front of one of the fields of the list or of its end mark. -/
inductive Boundary (b : Bytes) : Level → Bytes → Bytes → Prop
  | header {fs gs : List TaggedField} {es : List (List TaggedField)}
      (h : Grammatical b (fs ++ gs) es) :
      Boundary b .header (preamble formatVersion ++ encodeRow fs) (encodeList gs ++ encodeLists es)
  | entry {header fs gs : List TaggedField} {front back : List (List TaggedField)}
      (h : Grammatical b header (front ++ (fs ++ gs) :: back)) :
      Boundary b .entry (bytesOf header front ++ encodeRow fs) (encodeList gs ++ encodeLists back)

namespace Boundary

variable {level : Level} {front back : Bytes}

theorem append_eq (h : Boundary b level front back) : front ++ back = b := by
  cases h with
  | header h =>
    rw [h.bytes_eq]
    simp only [preamble, encodeList, encodeRow_append, List.append_assoc]
  | entry h =>
    rw [h.bytes_eq]
    simp only [bytesOf, encodeList, encodeRow_append, encodeLists_append, encodeLists_cons,
      List.append_assoc]

/-- A field that may be passed over can be put in. -/
theorem extended (h : Boundary b level front back) {f : TaggedField} (hf : f.Skippable) :
    Extended b (front ++ f.encode ++ back) := by
  cases h with
  | @header fs gs es h =>
    have hext := Extended.padded h (.insert_append hf fs gs) (List.forall₂_refl es)
    have hbytes : bytesOf (fs ++ f :: gs) es =
        preamble formatVersion ++ encodeRow fs ++ f.encode ++ (encodeList gs ++ encodeLists es) := by
      simp only [bytesOf, preamble, encodeList, encodeRow_append, encodeRow_cons, List.append_assoc]
    exact hbytes ▸ hext
  | @entry header fs gs front back h =>
    have hes : Forall₂ Padded (front ++ (fs ++ gs) :: back) (front ++ (fs ++ f :: gs) :: back) :=
      List.rel_append (List.forall₂_refl front) (.cons (.insert_append hf fs gs) (List.forall₂_refl back))
    have hext := Extended.padded h (.refl header) hes
    have hbytes : bytesOf header (front ++ (fs ++ f :: gs) :: back) =
        bytesOf header front ++ encodeRow fs ++ f.encode ++ (encodeList gs ++ encodeLists back) := by
      simp only [bytesOf, encodeList, encodeRow_append, encodeRow_cons, encodeLists_append,
        encodeLists_cons, List.append_assoc]
    exact hbytes ▸ hext

/-- The first entries of a key file make a key file. -/
theorem grammatical_front {header : List TaggedField} {front back : List (List TaggedField)}
    (h : Grammatical b header (front ++ back)) : Grammatical (bytesOf header front) header front where
  bytes_eq := rfl
  header_field := h.header_field
  entry_fields fs hfs := h.entry_fields fs (List.mem_append_left back hfs)
  versions_distinct := (List.pairwise_append.mp h.versions_distinct).1

/-- A head that is refused decides what the data is read as, whatever stands behind it. -/
theorem decode_of_refusedHead (h : Boundary b level front back) {id length : UInt32} {e : Error}
    (hid : id ≠ Field.endId) (he : level.headError? id length = some e) (rest : Bytes) :
    decode (front ++ (be32 id ++ be32 length ++ rest)) = .error e := by
  have hi := Input.delivers_ofBytes (front ++ (be32 id ++ be32 length ++ rest))
  cases h with
  | header h =>
    obtain ⟨name, hname, -⟩ := header_absorbAll fun f hf => h.header_field f (List.mem_append_left _ hf)
    rw [List.append_assoc] at hi ⊢
    exact load_of_headerError
      (fun j hj => headerLayout.readFields_of_headError none hid hname he hj) hi
  | @entry header fs gs front back h =>
    -- the entries in front are read as usual
    have hfront := grammatical_front h
    obtain ⟨-, kf, -, -, hkf⟩ := exists_denotes hfront
    rw [List.append_assoc] at hi ⊢
    obtain ⟨i, hi', hload⟩ := load_of_front Input.Setting.quiet_memory hfront hkf hi
    have hfields := (h.entry_fields (fs ++ gs) (by simp)).field
    have habsorb := KeyEntry.entry_absorbAll fun f hf => hfields f (List.mem_append_left gs hf)
    rw [decode, hload]
    exact readEntries_of_headError Input.Setting.quiet_memory kf hid habsorb he hi'

end Boundary

/-- **Key files of newer programs.** A key file with fields put in that a reader may pass over, any
number of them, whatever they hold, is read as the same key file. At every place in it where a field
can stand, another such field changes nothing; the head of a field with an odd id that is not known there
makes the data incompatible, and that of a field which is too long to be passed over makes it malformed,
whatever follows the head. -/
theorem decode_of_extended {b : Bytes} {kf : KeyFile} (h : decode b = .ok kf) :
    Extended b b ∧ ∀ b', Extended b b' → decode b' = .ok kf ∧
      ∀ level front back, Boundary b' level front back → front ++ back = b' ∧
        (∀ f : TaggedField, f.Skippable → decode (front ++ f.encode ++ back) = .ok kf) ∧
        (∀ (id length : UInt32) (rest : Bytes), ¬ Even id.toNat → id ∉ level.known →
          decode (front ++ (be32 id ++ be32 length ++ rest)) =
            .error (.incompatible (.criticalField level.context id))) ∧
        (∀ (id length : UInt32) (rest : Bytes), Even id.toNat → id ≠ Field.endId →
          2 ^ 20 < length.toNat → decode (front ++ (be32 id ++ be32 length ++ rest)) =
            .error (.malformed (.fieldTooLong level.context id length))) := by
  refine ⟨.refl h, fun b' hext => ⟨hext.decode_eq h, fun level front back hplace =>
    ⟨hplace.append_eq, fun f hf => ?_, fun id length rest hodd hid => ?_,
      fun id length rest heven hid hlong => ?_⟩⟩⟩
  · exact (hplace.extended hf).decode_eq (hext.decode_eq h)
  · exact hplace.decode_of_refusedHead (odd_ne_endId hodd) (Level.headError?_of_unknown hodd hid length)
      rest
  · exact hplace.decode_of_refusedHead hid (Level.headError?_of_tooLong heven hlong) rest

/-- Between the version and the cipher key of an entry, with an empty key file as what is put in. -/
theorem decode_of_extended_nested :
    let entry : KeyEntry := ⟨3, .replicate 32 7, .replicate 64 9⟩
    let kf : KeyFile := ⟨none, [entry], by decide⟩
    let nested : TaggedField := ⟨2, bytesOf [] [], by decide, by decide⟩
    let front := bytesOf [] [] ++ encodeRow (entry.fields.take 1)
    let back := encodeList (entry.fields.drop 1) ++ encodeLists []
    decode kf.encode = .ok kf ∧ Boundary kf.encode .entry front back ∧
      decode (front ++ nested.encode ++ back) = .ok kf ∧
      decode (front ++ (be32 7 ++ be32 0 ++ back)) =
        .error (.incompatible (.criticalField KeyEntry.context 7)) ∧
      decode (front ++ (be32 2 ++ be32 1048577 ++ back)) =
        .error (.malformed (.fieldTooLong KeyEntry.context 2 1048577)) := by
  intro entry kf nested front back
  have hplace : Boundary kf.encode .entry front back :=
    @Boundary.entry _ [] (entry.fields.take 1) (entry.fields.drop 1) [] [] kf.grammatical_encode
  obtain ⟨hself, hall⟩ := decode_of_extended kf.decode_encode
  obtain ⟨-, hhere⟩ := hall kf.encode hself
  obtain ⟨-, heven, hodd, hlong⟩ := hhere .entry front back hplace
  exact ⟨kf.decode_encode, hplace, heven nested ⟨by decide, by decide⟩,
    hodd 7 0 back (by decide) (by decide),
    hlong 2 1048577 back (by decide) (by decide) (by decide)⟩

end KeyFile

end RepoSeal
