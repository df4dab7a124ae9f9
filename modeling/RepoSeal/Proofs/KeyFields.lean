import RepoSeal.Key.File
import RepoSeal.Proofs.FieldLists
import Mathlib.Algebra.Group.Even
import Mathlib.Algebra.Ring.Parity
import Mathlib.Data.List.Induction

/-!
# RepoSeal — the fields of key files

Which fields may stand in the header of a key file and in an entry, said without the layouts that read
them, and what those layouts make of a list of such fields: of every kind of field the last one counts
(`header_absorbAll`, `entry_absorbAll`). Whether a field is admitted does not depend on what stands in
front of it.
-/

namespace RepoSeal

theorem isCritical_iff (id : UInt32) : Field.isCritical id = true ↔ ¬ Even id.toNat := by
  have hmod : (id &&& 1).toNat = id.toNat % 2 := by
    rw [UInt32.toNat_and]
    exact Nat.and_one_is_mod _
  rw [Field.isCritical, decide_eq_true_eq, Nat.not_even_iff, ← hmod, ← UInt32.toNat_inj]
  rfl

/-- A byte string is read as a text exactly if it is the text's bytes. -/
theorem ofUtf8?_eq_some {b : Bytes} {text : String} : ofUtf8? b = some text ↔ b = utf8 text := by
  unfold ofUtf8? utf8 String.fromUTF8?
  constructor
  · intro h
    split at h
    · cases h
      rfl
    · cases h
  · rintro rfl
    exact dif_pos text.isValidUTF8

/-- What a text must be like to be a key name. -/
theorem keyNameFlaw_eq_none {name : String} :
    keyNameFlaw name = none ↔
      name ≠ "" ∧ name ≠ defaultKeyName ∧ (∀ c ∈ name.toList, isKeyNameChar c = true) ∧
        name.utf8ByteSize ≤ keyNameMaxLength := by
  have hempty : name.isEmpty = true ↔ name = "" := String.isEmpty_iff
  have hchars : (!name.toList.all isKeyNameChar) = true ↔
      ¬ ∀ c ∈ name.toList, isKeyNameChar c = true := by simp
  unfold keyNameFlaw
  simp only [hempty, hchars, ne_eq, ← Nat.not_lt]
  split_ifs <;> simp_all

namespace TaggedField

/-- A field that a reader may pass over: its id is even, and it is not too long. -/
def Skippable (f : TaggedField) : Prop := Even f.id.toNat ∧ f.payload.length ≤ 2 ^ 20

theorem not_skippable_of_odd {f : TaggedField} {id : UInt32} (hid : f.id = id)
    (hodd : ¬ Even id.toNat) : ¬ f.Skippable := fun h => hodd (hid ▸ h.1)

/-- The payload of the last field with an id. -/
def lastPayload (id : UInt32) (fs : List TaggedField) : Option Bytes :=
  (fs.reverse.find? (·.id = id)).map payload

theorem lastPayload_concat (id : UInt32) (fs : List TaggedField) (f : TaggedField) :
    lastPayload id (fs ++ [f]) = if f.id = id then some f.payload else lastPayload id fs := by
  rw [lastPayload, List.reverse_append, List.reverse_singleton, List.singleton_append,
    List.find?_cons]
  by_cases h : f.id = id
  · simp [h]
  · simp [h, lastPayload]

theorem mem_of_lastPayload {id : UInt32} {fs : List TaggedField} {b : Bytes}
    (h : lastPayload id fs = some b) : ∃ f ∈ fs, f.id = id ∧ f.payload = b := by
  obtain ⟨f, hf, rfl⟩ := Option.map_eq_some_iff.mp h
  refine ⟨f, List.mem_reverse.mp (List.mem_of_find?_eq_some hf), ?_, rfl⟩
  simpa using List.find?_some hf

theorem lastPayload_isSome {id : UInt32} {fs : List TaggedField} :
    (lastPayload id fs).isSome ↔ ∃ f ∈ fs, f.id = id := by
  rw [lastPayload, Option.isSome_map, List.find?_isSome]
  simp

end TaggedField

open TaggedField

namespace Layout

variable {τ : Type} {l : Layout τ}

/-- The head of a field that is not known is no reason to refuse it if it may be passed over. -/
theorem headError?_eq_none {id : UInt32} (hrule : l.rule id = none) (length : UInt32) :
    l.headError? id length = none ↔ Even id.toNat ∧ length.toNat ≤ 2 ^ 20 := by
  have hcritical := isCritical_iff id
  have hlong : Field.maxPassedLength < length ↔ ¬ length.toNat ≤ 2 ^ 20 := by
    rw [UInt32.lt_iff_toNat_lt, Nat.not_le]
    rfl
  rw [headError?, hrule]
  dsimp only
  by_cases heven : Even id.toNat
  · rw [if_neg (hcritical.not.mpr (not_not.mpr heven))]
    by_cases hshort : length.toNat ≤ 2 ^ 20
    · rw [if_neg (hlong.not.mpr (not_not.mpr hshort))]
      exact ⟨fun _ => ⟨heven, hshort⟩, fun _ => rfl⟩
    · rw [if_pos (hlong.mpr hshort)]
      exact ⟨fun h => (by cases h), fun h => absurd h.2 hshort⟩
  · rw [if_pos (hcritical.mpr heven)]
    exact ⟨fun h => (by cases h), fun h => absurd h.1 heven⟩

/-- A field whose id a layout does not know is absorbed without effect if it may be passed over, and
is refused if not. -/
theorem absorb_of_unknown {f : TaggedField} (h : l.rule f.id = none) (st : τ) :
    (f.Skippable → l.absorb st f = .ok st) ∧
      (¬ f.Skippable → ∃ e, l.absorb st f = .error e) := by
  have hskippable : l.headError? f.id f.length = none ↔ f.Skippable := by
    rw [headError?_eq_none h, f.toNat_length]
    rfl
  unfold absorb
  cases hhead : l.headError? f.id f.length with
  | none =>
    rw [h]
    exact ⟨fun _ => rfl, fun hnot => absurd (hskippable.mp hhead) hnot⟩
  | some e =>
    refine ⟨fun hskip => ?_, fun _ => ⟨e, rfl⟩⟩
    cases hhead.symm.trans (hskippable.mpr hskip)

theorem absorb_of_known {f : TaggedField} {rule : FieldRule τ} (h : l.rule f.id = some rule)
    (st : τ) :
    l.absorb st f =
      match rule.lengthFlaw f.length with
      | some flaw => .error (.malformed flaw)
      | none => (rule.store st f.payload).mapError .malformed := by
  unfold absorb headError?
  rw [h]
  dsimp only
  cases rule.lengthFlaw f.length with
  | some flaw => rfl
  | none => rfl

end Layout

/-! ## The header -/

namespace KeyFile

/-- A payload that is a key name. -/
def IsName (payload : Bytes) : Prop :=
  payload.length ≤ keyNameMaxLength ∧
    ∃ text, ofUtf8? payload = some text ∧ keyNameFlaw text = none

/-- A field that may stand in the header of a key file. -/
def HeaderField (f : TaggedField) : Prop :=
  (f.id = nameField ∧ IsName f.payload) ∨ f.Skippable

theorem decodeName_eq_ok {payload : Bytes} {name : KeyName} :
    decodeName payload = .ok name ↔ payload = utf8 name.text := by
  rw [← ofUtf8?_eq_some]
  unfold decodeName
  cases ofUtf8? payload with
  | none => simp
  | some text =>
    rw [Option.some.injEq, @eq_comm _ text, ← KeyName.ofText_eq_ok]
    dsimp only
    cases KeyName.ofText text with
    | ok n =>
      constructor
      · intro h
        rw [Except.ok.inj h]
      · intro h
        rw [Except.ok.inj h]
    | error flaw =>
      constructor
      · intro h
        cases h
      · intro h
        cases h

theorem headerLayout_rule (id : UInt32) (h : id ≠ nameField) : headerLayout.rule id = none :=
  if_neg h

/-- A name field is absorbed if it holds a key name, and is refused if not. -/
theorem header_absorb_name {f : TaggedField} (hid : f.id = nameField) (st : Option KeyName) :
    (IsName f.payload → ∃ name : KeyName, f.payload = utf8 name.text ∧
      headerLayout.absorb st f = .ok (some name)) ∧
      (¬ IsName f.payload → ∃ e, headerLayout.absorb st f = .error e) := by
  have hrule : headerLayout.rule f.id = some
      { lengthFlaw := fun length =>
          if keyNameMaxLength < length.toNat then some (.nameFieldLength length) else none
        store := fun _ payload => some <$> decodeName payload } := if_pos hid
  rw [Layout.absorb_of_known hrule]
  dsimp only
  rw [f.toNat_length]
  constructor
  · rintro ⟨hshort, text, htext, hvalid⟩
    have hpayload : f.payload = utf8 text := ofUtf8?_eq_some.mp htext
    have hname : decodeName f.payload = .ok ⟨text, hvalid⟩ := decodeName_eq_ok.mpr hpayload
    refine ⟨⟨text, hvalid⟩, hpayload, ?_⟩
    rw [if_neg (Nat.not_lt.mpr hshort), hname]
    rfl
  · intro hnot
    by_cases hlong : keyNameMaxLength < f.payload.length
    · rw [if_pos hlong]
      exact ⟨_, rfl⟩
    · -- short enough, so it is the text that is no name
      rw [if_neg hlong]
      cases hname : decodeName f.payload with
      | error flaw => exact ⟨_, rfl⟩
      | ok name =>
        have htext : ofUtf8? f.payload = some name.text :=
          ofUtf8?_eq_some.mpr (decodeName_eq_ok.mp hname)
        exact absurd ⟨Nat.le_of_not_lt hlong, name.text, htext, name.valid⟩ hnot

theorem header_absorb_isOk (f : TaggedField) (st : Option KeyName) :
    (∃ st', headerLayout.absorb st f = .ok st') ↔ HeaderField f := by
  by_cases hid : f.id = nameField
  · have hodd : ¬ f.Skippable := not_skippable_of_odd hid (by decide)
    obtain ⟨hname, hnot⟩ := header_absorb_name hid st
    constructor
    · rintro ⟨st', hok⟩
      by_contra hfield
      obtain ⟨e, he⟩ := hnot fun h => hfield (.inl ⟨hid, h⟩)
      rw [hok] at he
      cases he
    · rintro (⟨-, h⟩ | h)
      · obtain ⟨name, -, hok⟩ := hname h
        exact ⟨_, hok⟩
      · exact absurd h hodd
  · obtain ⟨hskip, hnot⟩ := Layout.absorb_of_unknown (headerLayout_rule f.id hid) st
    constructor
    · rintro ⟨st', hok⟩
      by_contra hfield
      obtain ⟨e, he⟩ := hnot fun h => hfield (.inr h)
      rw [hok] at he
      cases he
    · rintro (⟨h, -⟩ | h)
      · exact absurd h hid
      · exact ⟨_, hskip h⟩

/-- In a header of admitted fields the last name counts. -/
theorem header_absorbAll {fs : List TaggedField} (h : ∀ f ∈ fs, HeaderField f) :
    ∃ name : Option KeyName, headerLayout.absorbAll none fs = .ok name ∧
      lastPayload nameField fs = name.map fun n => utf8 n.text := by
  -- from the back, for it is the last field that decides
  induction fs using List.reverseRecOn with
  | nil => exact ⟨none, rfl, rfl⟩
  | append_singleton fs f ih =>
    obtain ⟨name, hfs, hlast⟩ := ih fun g hg => h g (List.mem_append_left _ hg)
    rw [Layout.absorbAll_append, hfs, lastPayload_concat]
    by_cases hid : f.id = nameField
    · -- the new name takes the place of the one that was read
      have hname : IsName f.payload := by
        rcases h f (by simp) with ⟨-, hname⟩ | hskip
        · exact hname
        · exact absurd hskip (not_skippable_of_odd hid (by decide))
      obtain ⟨name', hpayload, hok⟩ := (header_absorb_name hid name).1 hname
      refine ⟨some name', ?_, by rw [if_pos hid, hpayload]; rfl⟩
      show headerLayout.absorbAll name [f] = _
      rw [Layout.absorbAll_cons, hok]
      rfl
    · have hskip : f.Skippable := by
        rcases h f (by simp) with ⟨hid', -⟩ | hskip
        · exact absurd hid' hid
        · exact hskip
      have hok := (Layout.absorb_of_unknown (headerLayout_rule f.id hid) name).1 hskip
      refine ⟨name, ?_, by rw [if_neg hid, hlast]⟩
      show headerLayout.absorbAll name [f] = _
      rw [Layout.absorbAll_cons, hok]
      rfl

end KeyFile

/-! ## Entries -/

namespace KeyEntry

/-- A field that may stand in an entry. -/
def EntryField (f : TaggedField) : Prop :=
  (f.id = versionField ∧ f.payload.length = 4) ∨
    (f.id = cipherKeyField ∧ f.payload.length = 32) ∨
    (f.id = digestKeyField ∧ f.payload.length = 64) ∨ f.Skippable

/-- What has been read of an entry after the given fields. -/
def draftOf (fs : List TaggedField) : Draft where
  version := (lastPayload versionField fs).map ofBe32
  cipherKey := (lastPayload cipherKeyField fs).map (Octets.ofPrefix 32)
  digestKey := (lastPayload digestKeyField fs).map (Octets.ofPrefix 64)

theorem layout_rule_version : layout.rule versionField = some
    { lengthFlaw := fun length => if length = 4 then none else some (.wordLength context length)
      store := fun d payload => .ok { d with version := some (ofBe32 payload) } } := rfl

theorem layout_rule_cipherKey : layout.rule cipherKeyField = some
    (sized 32 fun d k => { d with cipherKey := some k }) := rfl

theorem layout_rule_digestKey : layout.rule digestKeyField = some
    (sized 64 fun d k => { d with digestKey := some k }) := rfl

theorem layout_rule_of_ne {id : UInt32} (hv : id ≠ versionField) (hc : id ≠ cipherKeyField)
    (hd : id ≠ digestKeyField) : layout.rule id = none := by
  unfold layout
  dsimp only
  rw [if_neg hv, if_neg hc, if_neg hd]

/-- A field of a given size is absorbed if it has that size, and is refused if not. -/
theorem absorb_sized {f : TaggedField} {size : Nat} {store : Draft → Octets size → Draft}
    (h : layout.rule f.id = some (sized size store)) (d : Draft) :
    (f.payload.length = size →
      layout.absorb d f = .ok (store d (Octets.ofPrefix size f.payload))) ∧
      (f.payload.length ≠ size → ∃ e, layout.absorb d f = .error e) := by
  rw [Layout.absorb_of_known h]
  unfold sized
  dsimp only
  rw [f.toNat_length]
  constructor
  · intro hsize
    rw [if_pos hsize]
    rfl
  · intro hsize
    rw [if_neg hsize]
    exact ⟨_, rfl⟩

theorem absorb_version {f : TaggedField} (hid : f.id = versionField) (d : Draft) :
    (f.payload.length = 4 →
      layout.absorb d f = .ok { d with version := some (ofBe32 f.payload) }) ∧
      (f.payload.length ≠ 4 → ∃ e, layout.absorb d f = .error e) := by
  have hfour : f.length = 4 ↔ f.payload.length = 4 := by
    rw [← UInt32.toNat_inj, f.toNat_length]
    rfl
  rw [Layout.absorb_of_known (hid ▸ layout_rule_version)]
  dsimp only
  constructor
  · intro hsize
    rw [if_pos (hfour.mpr hsize)]
    rfl
  · intro hsize
    rw [if_neg (fun h => hsize (hfour.mp h))]
    exact ⟨_, rfl⟩

/-- A field that may stand in an entry is absorbed, in place of the earlier ones of its kind; any
other field is refused. -/
theorem entry_absorb (f : TaggedField) :
    (EntryField f → ∀ fs, layout.absorb (draftOf fs) f = .ok (draftOf (fs ++ [f]))) ∧
      (¬ EntryField f → ∀ d, ∃ e, layout.absorb d f = .error e) := by
  -- the kinds have odd ids, so a field of one of them is never one that may be passed over
  by_cases hv : f.id = versionField
  · have hc : f.id ≠ cipherKeyField := by rw [hv]; decide
    have hd : f.id ≠ digestKeyField := by rw [hv]; decide
    have hs := not_skippable_of_odd hv (by decide)
    have hfield : EntryField f ↔ f.payload.length = 4 := by simp [EntryField, eq_true hv, hc, hd, hs]
    rw [hfield]
    refine ⟨fun h fs => ?_, fun h d => (absorb_version hv d).2 h⟩
    rw [(absorb_version hv _).1 h]
    simp [draftOf, lastPayload_concat, eq_true hv, hc, hd]
  by_cases hc : f.id = cipherKeyField
  · have hd : f.id ≠ digestKeyField := by rw [hc]; decide
    have hs := not_skippable_of_odd hc (by decide)
    have hfield : EntryField f ↔ f.payload.length = 32 := by simp [EntryField, hv, eq_true hc, hd, hs]
    have hrule := hc ▸ layout_rule_cipherKey
    rw [hfield]
    refine ⟨fun h fs => ?_, fun h d => (absorb_sized hrule d).2 h⟩
    rw [(absorb_sized hrule _).1 h]
    simp [draftOf, lastPayload_concat, hv, eq_true hc, hd]
  by_cases hd : f.id = digestKeyField
  · have hs := not_skippable_of_odd hd (by decide)
    have hfield : EntryField f ↔ f.payload.length = 64 := by simp [EntryField, hv, hc, eq_true hd, hs]
    have hrule := hd ▸ layout_rule_digestKey
    rw [hfield]
    refine ⟨fun h fs => ?_, fun h d => (absorb_sized hrule d).2 h⟩
    rw [(absorb_sized hrule _).1 h]
    simp [draftOf, lastPayload_concat, hv, hc, eq_true hd]
  · have hfield : EntryField f ↔ f.Skippable := by simp [EntryField, hv, hc, hd]
    have hrule := layout_rule_of_ne hv hc hd
    rw [hfield]
    refine ⟨fun h fs => ?_, fun h d => (Layout.absorb_of_unknown hrule d).2 h⟩
    rw [(Layout.absorb_of_unknown hrule _).1 h]
    simp [draftOf, lastPayload_concat, hv, hc, hd]

theorem entry_absorb_isOk (f : TaggedField) (d : Draft) (h : ∃ d', layout.absorb d f = .ok d') :
    EntryField f := by
  by_contra hfield
  obtain ⟨d', hok⟩ := h
  obtain ⟨e, he⟩ := (entry_absorb f).2 hfield d
  rw [hok] at he
  cases he

theorem entry_absorbAll {fs : List TaggedField} (h : ∀ f ∈ fs, EntryField f) :
    layout.absorbAll {} fs = .ok (draftOf fs) := by
  induction fs using List.reverseRecOn with
  | nil => rfl
  | append_singleton fs f ih =>
    rw [Layout.absorbAll_append, ih fun g hg => h g (List.mem_append_left _ hg)]
    show layout.absorbAll (draftOf fs) [f] = _
    rw [Layout.absorbAll_cons, (entry_absorb f).1 (h f (by simp))]
    rfl

end KeyEntry

end RepoSeal
