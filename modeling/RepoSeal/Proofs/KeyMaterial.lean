import RepoSeal.Proofs.KeyExtensions

/-!
# RepoSeal — where key material stands

The material of a key stands in the payloads of two kinds of fields, in the entries of a key file and
not in its header (`MaterialAt`). Only the framing tells where: the places are there in data that is
refused too, and in a payload that is cut short. Two byte strings that differ at such places only fall
into the same fields, up to those payloads (`exists_twinRow`, `exists_twinTail`).
-/

namespace RepoSeal

open List (Forall₂)

/-! ## Byte strings that differ at some places -/

/-- Two byte strings of one length that differ at places of `P` only. -/
structure DifferOnlyAt (P : Nat → Prop) (b b' : Bytes) : Prop where
  length_eq : b'.length = b.length
  place : ∀ k, b'[k]? ≠ b[k]? → P k

namespace DifferOnlyAt

variable {P Q : Nat → Prop} {a b b' c : Bytes}

theorem imp (h : DifferOnlyAt P b b') (hPQ : ∀ k, P k → Q k) : DifferOnlyAt Q b b' :=
  ⟨h.length_eq, fun k hk => hPQ k (h.place k hk)⟩

/-- Where no place is left to differ at, the byte strings are equal. -/
theorem eq (h : DifferOnlyAt P b b') (hP : ∀ k < b.length, ¬ P k) : b' = b := by
  apply List.ext_getElem?
  intro k
  by_cases hk : k < b.length
  · by_contra hne
    exact hP k hk (h.place k hne)
  · rw [List.getElem?_eq_none (Nat.le_of_not_lt hk),
      List.getElem?_eq_none (h.length_eq ▸ Nat.le_of_not_lt hk)]

/-- What differs from two byte strings in a row is two byte strings in a row. -/
theorem split (h : DifferOnlyAt P (a ++ b) c) :
    ∃ a' b', c = a' ++ b' ∧ DifferOnlyAt P a a' ∧
      DifferOnlyAt (fun k => P (a.length + k)) b b' := by
  have hlen : c.length = a.length + b.length := h.length_eq.trans List.length_append
  refine ⟨c.take a.length, c.drop a.length, (List.take_append_drop _ _).symm,
    ⟨?_, fun k hk => ?_⟩, ⟨?_, fun k hk => h.place _ ?_⟩⟩
  · rw [List.length_take]
    omega
  · by_cases hlt : k < a.length
    · apply h.place
      rwa [List.getElem?_take_of_lt hlt, ← List.getElem?_append_left hlt] at hk
    · -- behind their ends both are the same
      refine absurd ?_ hk
      rw [List.getElem?_eq_none (by rw [List.length_take]; omega),
        List.getElem?_eq_none (Nat.le_of_not_lt hlt)]
  · rw [List.length_drop]
    omega
  · rw [List.getElem?_append_right (Nat.le_add_right _ _), Nat.add_sub_cancel_left]
    rwa [List.getElem?_drop] at hk

end DifferOnlyAt

/-- A part that is replaced by another one of its length. -/
theorem differOnlyAt_of_part {P : Nat → Prop} (a b : Bytes) {x x' : Bytes}
    (hlen : x'.length = x.length) (hP : ∀ j < x.length, P (a.length + j)) :
    DifferOnlyAt P (a ++ (x ++ b)) (a ++ (x' ++ b)) := by
  refine ⟨by simp only [List.length_append, hlen], fun k hk => ?_⟩
  by_cases hfront : k < a.length
  · refine absurd ?_ hk
    rw [List.getElem?_append_left hfront, List.getElem?_append_left hfront]
  by_cases hpart : k - a.length < x.length
  · have hplace := hP _ hpart
    rwa [Nat.add_sub_cancel' (Nat.le_of_not_lt hfront)] at hplace
  · refine absurd ?_ hk
    have hback : x.length ≤ k - a.length := Nat.le_of_not_lt hpart
    rw [List.getElem?_append_right (Nat.le_of_not_lt hfront),
      List.getElem?_append_right (Nat.le_of_not_lt hfront), List.getElem?_append_right hback,
      List.getElem?_append_right (hlen ▸ hback), hlen]

/-! ## Places of key material -/

namespace KeyFile

variable {lv : Level} {rest : Bytes} {k : Nat}

/-- The fields of an entry whose payload is key material. -/
def IsMaterialField (id : UInt32) : Prop :=
  id = KeyEntry.cipherKeyField ∨ id = KeyEntry.digestKeyField

/-- A place of key material in data that goes on in a list of fields, which is the header's or an
entry's. Behind the end mark of a list the next entry begins. -/
inductive MaterialAt : Level → Bytes → Nat → Prop
  | payload {id length : UInt32} {rest : Bytes} {j : Nat} (hid : IsMaterialField id)
      (hj : j < length.toNat) : MaterialAt .entry (be32 id ++ be32 length ++ rest) (8 + j)
  | field {lv : Level} (f : TaggedField) {rest : Bytes} {k : Nat} (h : MaterialAt lv rest k) :
      MaterialAt lv (f.encode ++ rest) (f.encode.length + k)
  | endMark {lv : Level} {rest : Bytes} {k : Nat} (h : MaterialAt .entry rest k) :
      MaterialAt lv (Field.endMark ++ rest) (4 + k)

/-- A place of key material in the data of a key file. -/
inductive Material : Bytes → Nat → Prop
  | behindPreamble {rest : Bytes} {k : Nat} (h : MaterialAt .header rest k) :
      Material (preamble formatVersion ++ rest) (16 + k)

theorem not_isMaterialField_endId : ¬ IsMaterialField Field.endId := by
  rintro (h | h) <;> cases h

theorem length_preamble (version : UInt32) : (preamble version).length = 16 := by
  rw [preamble, List.length_append, length_magic, length_be32]

/-- The head of a field and what follows it, told from the bytes. -/
theorem head_inj {id id' length length' : UInt32} {x x' : Bytes}
    (h : be32 id ++ be32 length ++ x = be32 id' ++ be32 length' ++ x') :
    id = id' ∧ length = length' ∧ x = x' := by
  rw [List.append_assoc, List.append_assoc] at h
  obtain ⟨hid, h⟩ := List.append_inj h rfl
  obtain ⟨hlength, hx⟩ := List.append_inj h rfl
  exact ⟨be32_injective hid, be32_injective hlength, hx⟩

/-- No field begins like the end of a list. -/
theorem endMark_ne_head {id length : UInt32} {x : Bytes} (hid : id ≠ Field.endId) :
    Field.endMark ++ rest ≠ be32 id ++ be32 length ++ x := by
  intro h
  rw [List.append_assoc] at h
  exact hid (be32_injective (List.append_inj h rfl).1).symm

theorem MaterialAt.of_endMark (h : MaterialAt lv (Field.endMark ++ rest) k) :
    ∃ j, k = 4 + j ∧ MaterialAt .entry rest j := by
  generalize hb : Field.endMark ++ rest = b at h
  cases h with
  | payload hid hj =>
    refine absurd hb (endMark_ne_head ?_)
    rintro rfl
    exact not_isMaterialField_endId hid
  | field f h => exact absurd hb (endMark_ne_head f.id_ne)
  | endMark h =>
    obtain ⟨-, rfl⟩ := List.append_inj hb rfl
    exact ⟨_, rfl, h⟩

/-- Behind the head of a field, key material stands in its payload, or behind the field if the whole
payload is there. -/
theorem MaterialAt.of_head {id length : UInt32} {x : Bytes} (hid : id ≠ Field.endId)
    (h : MaterialAt lv (be32 id ++ be32 length ++ x) k) :
    (lv = .entry ∧ IsMaterialField id ∧ ∃ j < length.toNat, k = 8 + j) ∨
      ∃ payload rest j, x = payload ++ rest ∧ payload.length = length.toNat ∧
        k = 8 + payload.length + j ∧ MaterialAt lv rest j := by
  generalize hb : be32 id ++ be32 length ++ x = b at h
  cases h with
  | payload hid' hj =>
    obtain ⟨rfl, rfl, -⟩ := head_inj hb
    exact .inl ⟨rfl, hid', _, hj, rfl⟩
  | @field _ f rest j h =>
    rw [f.encode_eq, List.append_assoc] at hb
    obtain ⟨rfl, rfl, hx⟩ := head_inj hb
    refine .inr ⟨f.payload, rest, j, hx, f.toNat_length.symm, ?_, h⟩
    rw [f.length_encode]
  | endMark h => exact absurd hb.symm (endMark_ne_head hid)

theorem MaterialAt.of_field (f : TaggedField) (h : MaterialAt lv (f.encode ++ rest) k) :
    (lv = .entry ∧ IsMaterialField f.id ∧ ∃ j < f.payload.length, k = 8 + j) ∨
      ∃ j, k = f.encode.length + j ∧ MaterialAt lv rest j := by
  rw [f.encode_eq, List.append_assoc] at h
  rcases h.of_head f.id_ne with ⟨hlv, hid, j, hj, hk⟩ | ⟨payload, rest', j, hx, hlen, hk, h'⟩
  · exact .inl ⟨hlv, hid, j, f.toNat_length ▸ hj, hk⟩
  · obtain ⟨rfl, rfl⟩ := List.append_inj hx (by rw [hlen, f.toNat_length])
    exact .inr ⟨j, by rw [f.length_encode, hk], h'⟩

/-- In a payload that is cut short there is nothing but that payload. -/
theorem MaterialAt.of_cutPayload {id length : UInt32} {part : Bytes} (hid : id ≠ Field.endId)
    (hlen : part.length < length.toNat) (h : MaterialAt lv (be32 id ++ be32 length ++ part) k) :
    8 ≤ k := by
  rcases h.of_head hid with ⟨-, -, j, -, hk⟩ | ⟨payload, rest', j, rfl, hpayload, -, -⟩
  · omega
  · rw [List.length_append] at hlen
    omega

/-- There is no key material in a head that is cut short. -/
theorem not_materialAt_of_part {part : Bytes} (hlen : part.length < 8)
    (hend : ¬ Field.endMark <+: part) : ¬ MaterialAt lv part k := by
  intro h
  cases h with
  | payload hid hj =>
    simp only [List.length_append, length_be32] at hlen
    omega
  | field f h =>
    rw [List.length_append, f.length_encode] at hlen
    omega
  | endMark h => exact hend (List.prefix_append _ _)

theorem Material.of_preamble (h : Material (preamble formatVersion ++ rest) k) :
    ∃ j, k = 16 + j ∧ MaterialAt .header rest j := by
  generalize hb : preamble formatVersion ++ rest = b at h
  cases h with
  | behindPreamble h =>
    rw [List.append_cancel_left hb]
    exact ⟨_, rfl, h⟩

/-! ## Twins -/

/-- Two fields of a list that differ in key material only. -/
structure Twin (lv : Level) (f g : TaggedField) : Prop where
  id_eq : g.id = f.id
  length_eq : g.length = f.length
  payload_eq : ¬ (lv = .entry ∧ IsMaterialField f.id) → g.payload = f.payload

theorem eq_of_twin_header {f g : TaggedField} (h : Twin .header f g) : f = g := by
  obtain ⟨hid, -, hpayload⟩ := h
  obtain ⟨id, payload, _, _⟩ := f
  obtain ⟨id', payload', _, _⟩ := g
  cases hid
  cases hpayload fun h => nomatch h.1
  rfl

/-- What stands behind a row, with key material replaced. -/
inductive TwinTail : FieldTail → FieldTail → Prop
  | closed {rest rest' : Bytes} (h : DifferOnlyAt (MaterialAt .entry rest) rest rest') :
      TwinTail (.closed rest) (.closed rest')
  | inHead (part : Bytes) (hlen : part.length < 8) (hend : ¬ Field.endMark <+: part) :
      TwinTail (.inHead part hlen hend) (.inHead part hlen hend)
  | inPayload (id length : UInt32) {part part' : Bytes} (hid : id ≠ Field.endId)
      (hlen : part.length < length.toNat) (hlen' : part'.length < length.toNat) :
      TwinTail (.inPayload id length part hid hlen) (.inPayload id length part' hid hlen')

/-- A byte string that differs from a field at key material only begins with a twin of that field. -/
theorem exists_twin {c : Bytes} (f : TaggedField)
    (h : DifferOnlyAt (MaterialAt lv (f.encode ++ rest)) (f.encode ++ rest) c) :
    ∃ g rest', c = TaggedField.encode g ++ rest' ∧ Twin lv f g ∧
      DifferOnlyAt (MaterialAt lv rest) rest rest' := by
  obtain ⟨x, rest', rfl, hfield, hrest⟩ := h.split
  rw [f.encode_eq] at hfield
  obtain ⟨head, payload, rfl, hhead, hpayload⟩ := hfield.split
  -- the head is no place of key material
  have hhead' : head = be32 f.id ++ be32 f.length := by
    refine hhead.eq fun k hk hplace => ?_
    rw [List.length_append, length_be32, length_be32] at hk
    rcases hplace.of_field with ⟨-, -, j, -, hj⟩ | ⟨j, hj, -⟩
    · omega
    · rw [f.length_encode] at hj
      omega
  have hlt : payload.length < UInt32.size := hpayload.length_eq ▸ f.length_lt
  let g : TaggedField := ⟨f.id, payload, f.id_ne, hlt⟩
  have hg : g.length = f.length := congrArg UInt32.ofNat hpayload.length_eq
  refine ⟨g, rest', ?_, ⟨rfl, hg, fun hnot => ?_⟩, hrest.imp fun k hk => ?_⟩
  · rw [g.encode_eq, hg, hhead']
  · -- neither is the payload of another field
    refine hpayload.eq fun k hk hplace => ?_
    rw [List.length_append, length_be32, length_be32] at hplace
    rcases hplace.of_field with ⟨hlv, hid, -⟩ | ⟨j, hj, -⟩
    · exact hnot ⟨hlv, hid⟩
    · rw [f.length_encode] at hj
      omega
  · rcases hk.of_field with ⟨-, -, j, hj, hk⟩ | ⟨j, hk, hplace⟩
    · rw [f.length_encode] at hk
      omega
    · rwa [Nat.add_left_cancel hk]

theorem exists_twinRow {c : Bytes} (fs : List TaggedField)
    (h : DifferOnlyAt (MaterialAt lv (encodeRow fs ++ rest)) (encodeRow fs ++ rest) c) :
    ∃ gs rest', c = encodeRow gs ++ rest' ∧ Forall₂ (Twin lv) fs gs ∧
      DifferOnlyAt (MaterialAt lv rest) rest rest' := by
  induction fs generalizing c with
  | nil => exact ⟨[], c, rfl, .nil, h⟩
  | cons f fs ih =>
    rw [encodeRow_cons, List.append_assoc] at h
    obtain ⟨g, c', rfl, hfg, h'⟩ := exists_twin f h
    obtain ⟨gs, rest', rfl, hrow, hrest⟩ := ih h'
    exact ⟨g :: gs, rest', by rw [encodeRow_cons, List.append_assoc], .cons hfg hrow, hrest⟩

theorem exists_twinTail {c : Bytes} (tail : FieldTail)
    (h : DifferOnlyAt (MaterialAt lv tail.bytes) tail.bytes c) :
    ∃ tail' : FieldTail, c = tail'.bytes ∧ TwinTail tail tail' := by
  cases tail with
  | closed rest =>
    obtain ⟨mark, rest', rfl, hmark, hrest⟩ := h.split
    have hmark' : mark = Field.endMark := by
      refine hmark.eq fun k hk hplace => ?_
      obtain ⟨j, hj, -⟩ := hplace.of_endMark
      rw [Field.endMark, length_be32] at hk
      omega
    refine ⟨.closed rest', by rw [hmark', FieldTail.bytes], .closed (hrest.imp fun k hk => ?_)⟩
    obtain ⟨j, hj, hplace⟩ := hk.of_endMark
    rwa [Nat.add_left_cancel hj]
  | inHead part hlen hend =>
    have hc : c = part := h.eq fun k _ => not_materialAt_of_part hlen hend
    exact ⟨.inHead part hlen hend, hc, .inHead part hlen hend⟩
  | inPayload id length part hid hlen =>
    obtain ⟨head, part', rfl, hhead, hpart⟩ := h.split
    have hhead' : head = be32 id ++ be32 length := by
      refine hhead.eq fun k hk hplace => ?_
      have hk' := hplace.of_cutPayload hid hlen
      rw [List.length_append, length_be32, length_be32] at hk
      omega
    have hlen' : part'.length < length.toNat := hpart.length_eq ▸ hlen
    exact ⟨.inPayload id length part' hid hlen', by rw [hhead', FieldTail.bytes],
      .inPayload id length hid hlen hlen'⟩

/-- **Twins.** What differs from a byte string at key material only is cut into twins of its fields. -/
theorem exists_twins {c : Bytes} (fs : List TaggedField) (tail : FieldTail)
    (h : DifferOnlyAt (MaterialAt lv (encodeRow fs ++ tail.bytes)) (encodeRow fs ++ tail.bytes) c) :
    ∃ gs tail', c = encodeRow gs ++ FieldTail.bytes tail' ∧ Forall₂ (Twin lv) fs gs ∧
      TwinTail tail tail' := by
  obtain ⟨gs, c', rfl, hrow, h'⟩ := exists_twinRow fs h
  obtain ⟨tail', rfl, htail⟩ := exists_twinTail tail h'
  exact ⟨gs, tail', rfl, hrow, htail⟩

end KeyFile

end RepoSeal
