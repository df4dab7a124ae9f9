import RepoSeal.Key.Field
import RepoSeal.Proofs.Inputs

/-!
# RepoSeal — lists of fields

Cutting a byte string into fields needs no layout: every byte string is a row of whole fields and
then one of three things, the end mark of the list, a part of a field's head, or a head whose payload
is cut short (`exists_cutting`). What a layout makes of the fields is a fold over the row
(`absorbAll`). So reading a list is described by its cutting and its fold (`readFields_yields`), for
every byte string and every way in which the data ends.
-/

namespace RepoSeal

/-- A field as it stands in a byte string. -/
structure TaggedField where
  id : UInt32
  payload : Bytes
  id_ne : id ≠ Field.endId
  length_lt : payload.length < UInt32.size

namespace TaggedField

def length (f : TaggedField) : UInt32 := .ofNat f.payload.length

theorem toNat_length (f : TaggedField) : f.length.toNat = f.payload.length := by
  rw [length, UInt32.toNat_ofNat', Nat.mod_eq_of_lt f.length_lt]

def encode (f : TaggedField) : Bytes := Field.encode f.id f.payload

theorem encode_eq (f : TaggedField) : f.encode = be32 f.id ++ be32 f.length ++ f.payload := rfl

@[simp] theorem length_encode (f : TaggedField) : f.encode.length = 8 + f.payload.length := by
  simp only [encode_eq, List.length_append, length_be32]

end TaggedField

/-- The bytes of some fields one after the other. -/
def encodeRow (fs : List TaggedField) : Bytes := fs.flatMap TaggedField.encode

/-- The bytes of a list of fields, its end mark included. -/
def encodeList (fs : List TaggedField) : Bytes := encodeRow fs ++ Field.endMark

@[simp] theorem encodeRow_nil : encodeRow [] = [] := rfl

theorem encodeRow_cons (f : TaggedField) (fs : List TaggedField) :
    encodeRow (f :: fs) = f.encode ++ encodeRow fs := rfl

theorem encodeRow_append (fs gs : List TaggedField) :
    encodeRow (fs ++ gs) = encodeRow fs ++ encodeRow gs := by
  rw [encodeRow, List.flatMap_append]; rfl

/-! ## Cutting a byte string into fields -/

/-- What stands behind the last whole field of a byte string. -/
inductive FieldTail
  /-- The list is closed, and `rest` stands behind its end mark. -/
  | closed (rest : Bytes)
  /-- The data ends inside the head of a field, or inside the end mark. -/
  | inHead (part : Bytes) (length_lt : part.length < 8) (not_end : ¬ Field.endMark <+: part)
  /-- The data ends inside the payload of a field. -/
  | inPayload (id length : UInt32) (part : Bytes) (id_ne : id ≠ Field.endId)
      (length_lt : part.length < length.toNat)

def FieldTail.bytes : FieldTail → Bytes
  | closed rest => Field.endMark ++ rest
  | inHead part _ _ => part
  | inPayload id length part _ _ => be32 id ++ be32 length ++ part

/-- Every byte string that holds a field's head and its payload begins with that field. -/
theorem exists_field {id length : UInt32} {b : Bytes} (hid : id ≠ Field.endId)
    (hlen : length.toNat ≤ b.length) :
    ∃ f : TaggedField, f.id = id ∧ f.length = length ∧ f.payload = b.take length.toNat := by
  have hsize : (b.take length.toNat).length = length.toNat := by
    rw [List.length_take, Nat.min_eq_left hlen]
  refine ⟨⟨id, b.take length.toNat, hid, ?_⟩, rfl, ?_, rfl⟩
  · rw [hsize]
    exact length.toNat_lt
  · rw [TaggedField.length, hsize, UInt32.ofNat_toNat]

/-- Every byte string is a row of fields and a tail. -/
theorem exists_cutting (b : Bytes) :
    ∃ (fs : List TaggedField) (tail : FieldTail), b = encodeRow fs ++ tail.bytes := by
  induction hn : b.length using Nat.strongRecOn generalizing b with
  | ind n ih =>
    by_cases hend : Field.endMark <+: b
    · obtain ⟨rest, rfl⟩ := hend
      exact ⟨[], .closed rest, rfl⟩
    by_cases hhead : b.length < 8
    · exact ⟨[], .inHead b hhead hend, rfl⟩
    -- a whole head is there, of a field and not of the end
    obtain ⟨id, hid⟩ : ∃ id, b.take 4 = be32 id :=
      exists_be32 (by rw [List.length_take]; omega)
    obtain ⟨length, hlength⟩ : ∃ length, (b.drop 4).take 4 = be32 length :=
      exists_be32 (by rw [List.length_take, List.length_drop]; omega)
    have hb : b = be32 id ++ be32 length ++ b.drop 8 := by
      rw [← hid, ← hlength, List.append_assoc]
      calc b = b.take 4 ++ b.drop 4 := (List.take_append_drop 4 b).symm
        _ = b.take 4 ++ ((b.drop 4).take 4 ++ (b.drop 4).drop 4) := by
          rw [List.take_append_drop 4 (b.drop 4)]
        _ = _ := by rw [List.drop_drop]
    have hne : id ≠ Field.endId := by
      rintro rfl
      apply hend
      rw [hb, List.append_assoc]
      exact List.prefix_append _ _
    by_cases hpayload : (b.drop 8).length < length.toNat
    · exact ⟨[], .inPayload id length (b.drop 8) hne hpayload, hb⟩
    · obtain ⟨f, rfl, rfl, hf⟩ := exists_field hne (Nat.le_of_not_lt hpayload)
      have hcut : b = f.encode ++ (b.drop 8).drop f.length.toNat := by
        rw [f.encode_eq, hf, List.append_assoc, List.take_append_drop]
        exact hb
      have hshort : ((b.drop 8).drop f.length.toNat).length < n := by
        rw [List.length_drop, List.length_drop]
        omega
      obtain ⟨fs, tail, htail⟩ := ih _ hshort _ rfl
      refine ⟨f :: fs, tail, ?_⟩
      rw [encodeRow_cons, List.append_assoc, ← htail]
      exact hcut

/-! ## What a layout makes of fields -/

namespace Layout

variable {τ : Type} (l : Layout τ)

/-- What a field is refused for on account of its head alone. -/
def headError? (id length : UInt32) : Option Error :=
  match l.rule id with
  | none =>
    if Field.isCritical id then some (.incompatible (.criticalField l.context id))
    else if Field.maxPassedLength < length then
      some (.malformed (.fieldTooLong l.context id length))
    else none
  | some rule => (rule.lengthFlaw length).map .malformed

/-- What a field does to what has been read so far. -/
def absorb (st : τ) (f : TaggedField) : Except Error τ :=
  match l.headError? f.id f.length with
  | some e => .error e
  | none =>
    match l.rule f.id with
    | none => .ok st
    | some rule => (rule.store st f.payload).mapError .malformed

def absorbAll (st : τ) (fs : List TaggedField) : Except Error τ := fs.foldlM l.absorb st

/-! ### Refusals

A field is refused where the row of fields before it was absorbed. Only an unknown field that is
critical makes the data incompatible; everything else that a field can be refused for is
malformed. -/

theorem absorbAll_append (st : τ) (fs gs : List TaggedField) :
    l.absorbAll st (fs ++ gs) = l.absorbAll st fs >>= fun st' => l.absorbAll st' gs :=
  List.foldlM_append

theorem absorbAll_cons (st : τ) (f : TaggedField) (fs : List TaggedField) :
    l.absorbAll st (f :: fs) = l.absorb st f >>= fun st' => l.absorbAll st' fs :=
  List.foldlM_cons

/-- Before the field that is refused there is a row that is absorbed. -/
theorem exists_refused {st : τ} {fs : List TaggedField} {e : Error}
    (h : l.absorbAll st fs = .error e) :
    ∃ front f back st', fs = front ++ f :: back ∧ l.absorbAll st front = .ok st' ∧
      l.absorb st' f = .error e := by
  induction fs generalizing st with
  | nil => cases h
  | cons f fs ih =>
    rw [absorbAll_cons] at h
    cases ha : l.absorb st f with
    | error e' =>
      rw [ha] at h
      cases h
      exact ⟨[], f, fs, st, rfl, rfl, ha⟩
    | ok st₁ =>
      rw [ha] at h
      obtain ⟨front, g, back, st', rfl, hfront, hg⟩ := ih h
      refine ⟨f :: front, g, back, st', rfl, ?_, hg⟩
      rw [absorbAll_cons, ha]
      exact hfront

/-- Every field of a row that is absorbed was absorbed in some state. -/
theorem absorb_of_mem {st st' : τ} {fs : List TaggedField} (h : l.absorbAll st fs = .ok st')
    {f : TaggedField} (hf : f ∈ fs) : ∃ st₁ st₂, l.absorb st₁ f = .ok st₂ := by
  obtain ⟨front, back, rfl⟩ := List.append_of_mem hf
  rw [absorbAll_append] at h
  cases hfront : l.absorbAll st front with
  | error e =>
    rw [hfront] at h
    cases h
  | ok st₁ =>
    rw [hfront] at h
    have h' : l.absorbAll st₁ (f :: back) = .ok st' := h
    rw [absorbAll_cons] at h'
    cases ha : l.absorb st₁ f with
    | error e =>
      rw [ha] at h'
      cases h'
    | ok st₂ => exact ⟨st₁, st₂, ha⟩

/-- The id of a field that its layout does not know, though it must be understood. -/
def UnknownCritical (id : UInt32) : Prop := l.rule id = none ∧ Field.isCritical id = true

theorem headError?_of_unknownCritical {id : UInt32} (h : l.UnknownCritical id) (length : UInt32) :
    l.headError? id length = some (.incompatible (.criticalField l.context id)) := by
  rw [headError?, h.1]
  simp only [h.2, if_true]

/-- A refusal is an incompatibility if the id of the field is the reason, and malformation if its
length or its payload is. -/
inductive Refusal (id : UInt32) : Error → Prop
  | critical (h : l.UnknownCritical id) :
      Refusal id (.incompatible (.criticalField l.context id))
  | flaw (h : ¬ l.UnknownCritical id) (cause : Malformation) : Refusal id (.malformed cause)

theorem refusal_of_headError? {id length : UInt32} {e : Error}
    (h : l.headError? id length = some e) : l.Refusal id e := by
  unfold headError? at h
  split at h
  · rename_i hrule
    split at h
    · rename_i hcritical
      cases h
      exact .critical ⟨hrule, hcritical⟩
    · rename_i hcritical
      split at h
      · cases h
        exact .flaw (fun hu => hcritical hu.2) _
      · cases h
  · rename_i rule hrule
    obtain ⟨flaw, -, rfl⟩ := Option.map_eq_some_iff.mp h
    refine .flaw (fun hu => ?_) flaw
    rw [hu.1] at hrule
    cases hrule

theorem refusal_of_absorb {st : τ} {f : TaggedField} {e : Error} (h : l.absorb st f = .error e) :
    l.Refusal f.id e := by
  unfold absorb at h
  split at h
  · rename_i hhead
    cases h
    exact l.refusal_of_headError? hhead
  · split at h
    · cases h
    · rename_i rule hrule
      cases hstore : rule.store st f.payload with
      | ok st' =>
        rw [hstore] at h
        cases h
      | error flaw =>
        rw [hstore] at h
        cases h
        refine .flaw (fun hu => ?_) flaw
        rw [hu.1] at hrule
        cases hrule

/-! ### Cuttings -/

/-- How a reader gets behind the payload of a field: what it does not know it passes over. -/
def passage (id : UInt32) : Passage := if (l.rule id).isSome then .taken else .passedOver

theorem passage_of_none {id : UInt32} (h : l.rule id = none) : l.passage id = .passedOver := by
  rw [passage, h]
  rfl

theorem passage_of_some {id : UInt32} {rule : FieldRule τ} (h : l.rule id = some rule) :
    l.passage id = .taken := by
  rw [passage, h]
  rfl

/-- What reading a list comes to: its fields are absorbed, and then the list is closed or cut. -/
def readCutting (σ : Input.Setting) (st : τ) (fs : List TaggedField) (tail : FieldTail) :
    Except Error (τ × Bytes) := do
  let st' ← l.absorbAll st fs
  match tail with
  | .closed rest => .ok (st', rest)
  | .inHead _ _ _ => .error (σ.cutShort .taken l.context)
  | .inPayload id length _ _ _ =>
    .error ((l.headError? id length).getD (σ.cutShort (l.passage id) l.context))

/-- A list that is read is closed, and all its fields are absorbed. -/
theorem readCutting_eq_ok {σ : Input.Setting} {st st' : τ} {fs : List TaggedField}
    {tail : FieldTail} {rest : Bytes} (h : l.readCutting σ st fs tail = .ok (st', rest)) :
    l.absorbAll st fs = .ok st' ∧ tail = .closed rest := by
  unfold readCutting at h
  cases habsorb : l.absorbAll st fs with
  | error e =>
    rw [habsorb] at h
    cases h
  | ok st₁ =>
    rw [habsorb] at h
    cases tail with
    | closed rest' =>
      cases h
      exact ⟨rfl, rfl⟩
    | inHead => cases h
    | inPayload => cases h

/-- Reading a list fails at a head behind a row that is absorbed, or because the data ends. -/
theorem refusal_of_readCutting {σ : Input.Setting} {st : τ} {fs : List TaggedField}
    {tail : FieldTail} {e : Error} (h : l.readCutting σ st fs tail = .error e) :
    (∃ front id length rest,
        encodeRow fs ++ tail.bytes = encodeRow front ++ (be32 id ++ be32 length ++ rest) ∧
        (∃ st', l.absorbAll st front = .ok st') ∧ l.Refusal id e) ∨
      ∃ how, e = σ.cutShort how l.context := by
  unfold readCutting at h
  cases habsorb : l.absorbAll st fs with
  | error e' =>
    rw [habsorb] at h
    cases h
    obtain ⟨front, f, back, st', rfl, hfront, hf⟩ := l.exists_refused habsorb
    -- what stands behind the refused head does not matter any more
    left
    refine ⟨front, f.id, f.length, f.payload ++ (encodeRow back ++ tail.bytes), ?_,
      ⟨st', hfront⟩, l.refusal_of_absorb hf⟩
    rw [encodeRow_append, encodeRow_cons, f.encode_eq]
    simp only [List.append_assoc]
  | ok st' =>
    rw [habsorb] at h
    cases tail with
    | closed rest => cases h
    | inHead part hlen hend =>
      cases h
      exact .inr ⟨.taken, rfl⟩
    | inPayload id length part hid hlen =>
      -- the head is looked at before the payload is found too short
      cases hhead : l.headError? id length with
      | none =>
        simp only [hhead] at h
        cases h
        exact .inr ⟨l.passage id, rfl⟩
      | some e' =>
        simp only [hhead] at h
        cases h
        exact .inl ⟨fs, id, length, part, rfl, ⟨st', habsorb⟩, l.refusal_of_headError? hhead⟩

end Layout

/-! ## Reading one field -/

open Reader

variable {i : Input} {σ : Input.Setting} {rest part : Bytes}

namespace Field

variable (context : String)

theorem next_of_endMark (hi : i.Delivers (endMark ++ rest) σ) :
    ∃ i', (next context).on i = (.ok none, i') ∧ i'.Delivers rest σ := by
  obtain ⟨i', hw, hi'⟩ := word_of_append context hi
  refine ⟨i', ?_, hi'⟩
  rw [next, on_bind, hw]
  rfl

theorem next_of_head {id length : UInt32} (hid : id ≠ endId)
    (hi : i.Delivers (be32 id ++ be32 length ++ rest) σ) :
    ∃ i', (next context).on i = (.ok (some (id, length)), i') ∧ i'.Delivers rest σ := by
  rw [List.append_assoc] at hi
  obtain ⟨i₁, hid', hi₁⟩ := word_of_append context hi
  obtain ⟨i', hlength, hi'⟩ := word_of_append context hi₁
  refine ⟨i', ?_, hi'⟩
  rw [next, on_bind, hid']
  simp only [if_neg hid]
  rw [on_bind, hlength]
  rfl

/-- A head that is cut short. -/
theorem next_of_part (hlen : part.length < 8) (hend : ¬ endMark <+: part)
    (hi : i.Delivers part σ) :
    ∃ i', (next context).on i = (.error (σ.cutShort .taken context), i') := by
  -- the data ends in the id or in the length
  by_cases hshort : part.length < 4
  · obtain ⟨i', hw⟩ := word_of_lt context hi hshort
    exact ⟨i', by rw [next, on_bind, hw]⟩
  · obtain ⟨id, hid⟩ : ∃ id, part.take 4 = be32 id :=
      exists_be32 (by rw [List.length_take]; omega)
    have hpart : part = be32 id ++ part.drop 4 := by rw [← hid, List.take_append_drop]
    have hne : id ≠ endId := by
      rintro rfl
      exact hend ⟨part.drop 4, hpart.symm⟩
    rw [hpart] at hi
    obtain ⟨i₁, hid', hi₁⟩ := word_of_append context hi
    obtain ⟨i', hw⟩ := word_of_lt context hi₁ (by rw [List.length_drop]; omega)
    refine ⟨i', ?_⟩
    rw [next, on_bind, hid']
    simp only [if_neg hne]
    rw [on_bind, hw]

end Field

namespace Layout

variable {τ : Type} (l : Layout τ) (st : τ)

/-- Reads the payload of a field whose head is no reason to refuse it. -/
def readPayload (id length : UInt32) : Reader τ :=
  match l.rule id with
  | none => do
    Reader.note ⟨l.context, id, length⟩
    Reader.skip l.context length.toNat
    return st
  | some rule => do
    let payload ← Reader.take l.context length.toNat
    match rule.store st payload with
    | .ok st' => return st'
    | .error flaw => Reader.fail (.malformed flaw)

/-- The head of a field decides first. -/
theorem on_readField (id length : UInt32) (i : Input) :
    (l.readField st id length).on i =
      match l.headError? id length with
      | some e => (.error e, i)
      | none => (l.readPayload st id length).on i := by
  unfold headError? readField readPayload
  cases l.rule id with
  | none =>
    simp only [Field.passOver, on_bind]
    by_cases hcritical : Field.isCritical id = true
    · rw [if_pos hcritical, if_pos hcritical]
      rfl
    · rw [if_neg hcritical, if_neg hcritical]
      by_cases hlong : Field.maxPassedLength < length
      · rw [if_pos hlong, if_pos hlong]
        rfl
      · rw [if_neg hlong, if_neg hlong]
        simp only [on_bind, on_note]
  | some rule =>
    dsimp only
    cases rule.lengthFlaw length with
    | none => rfl
    | some flaw => rfl

/-- A field whose payload is cut short is refused on account of its head, if that is a reason. -/
theorem readField_of_part {id length : UInt32} (hlen : part.length < length.toNat)
    (hi : i.Delivers part σ) :
    ((l.readField st id length).on i).1 =
      .error ((l.headError? id length).getD (σ.cutShort (l.passage id) l.context)) := by
  rw [on_readField]
  cases l.headError? id length with
  | some e => rfl
  | none =>
    unfold readPayload
    dsimp only
    cases hrule : l.rule id with
    | none =>
      have hi' : Input.Delivers { i with passed := ⟨l.context, id, length⟩ :: i.passed } part σ := by
        exact ⟨hi.remaining_eq, hi.setting_eq⟩
      obtain ⟨i', hs⟩ := skip_of_lt l.context hi' hlen
      simp only [on_bind, on_note, hs, l.passage_of_none hrule]
      rfl
    | some rule =>
      obtain ⟨i', ht⟩ := take_of_lt l.context hi hlen
      simp only [on_bind, ht, l.passage_of_some hrule]
      rfl

/-- A whole field is absorbed. -/
theorem readField_of_payload (f : TaggedField) (hi : i.Delivers (f.payload ++ rest) σ) :
    Yields ((l.readField st f.id f.length).on i) σ ((l.absorb st f).map (·, rest)) := by
  rw [on_readField, absorb]
  cases l.headError? f.id f.length with
  | some e => rfl
  | none =>
    unfold readPayload
    dsimp only
    cases l.rule f.id with
    | none =>
      have hi' : Input.Delivers { i with passed := ⟨l.context, f.id, f.length⟩ :: i.passed }
          (f.payload ++ rest) σ := ⟨hi.remaining_eq, hi.setting_eq⟩
      obtain ⟨i', hs, hi''⟩ := skip_of_append l.context hi' f.toNat_length.symm
      simp only [on_bind, on_note, hs]
      exact ⟨rfl, hi''⟩
    | some rule =>
      obtain ⟨i', ht, hi'⟩ := take_of_append l.context hi f.toNat_length.symm
      simp only [on_bind, ht]
      cases rule.store st f.payload with
      | ok st' => exact ⟨rfl, hi'⟩
      | error flaw => rfl

/-! ## Reading a list of fields -/

theorem readFields_eq (i : Input) :
    l.readFields st i =
      match (Field.next l.context).on i with
      | (.error e, i') => (.error e, i')
      | (.ok none, i') => (.ok st, i')
      | (.ok (some (id, length)), i₁) =>
        match (l.readField st id length).on i₁ with
        | (.error e, i') => (.error e, i')
        | (.ok st', i₂) => l.readFields st' i₂ := by
  rw [readFields]
  split
  · rename_i hn
    rw [hn]
  · rename_i hn
    rw [hn]
  · rename_i id length i₁ hn
    rw [hn]
    dsimp only
    split
    · rename_i hf
      rw [hf]
    · rename_i hf
      rw [hf]

/-- A refused field ends the reading. -/
theorem readFields_of_refused {id length : UInt32} {e : Error} {i₁ : Input}
    (hn : (Field.next l.context).on i = (.ok (some (id, length)), i₁))
    (hf : ((l.readField st id length).on i₁).1 = .error e) :
    (l.readFields st i).1 = .error e := by
  obtain ⟨i', hf⟩ := eq_error_of_fst hf
  rw [readFields_eq, hn]
  dsimp only
  rw [hf]

/-- **What reading a list of fields comes to.** It is decided by the cutting of the bytes that
remain, whatever the schedule. -/
theorem readFields_yields (fs : List TaggedField) (tail : FieldTail)
    (hi : i.Delivers (encodeRow fs ++ tail.bytes) σ) :
    Yields (l.readFields st i) σ (l.readCutting σ st fs tail) := by
  induction fs generalizing st i with
  | nil =>
    -- no whole field is left, so the tail decides
    rw [encodeRow_nil, List.nil_append] at hi
    cases tail with
    | closed rest =>
      obtain ⟨i', hn, hi'⟩ := Field.next_of_endMark l.context hi
      rw [readFields_eq, hn]
      exact ⟨rfl, hi'⟩
    | inHead part hlen hend =>
      obtain ⟨i', hn⟩ := Field.next_of_part l.context hlen hend hi
      rw [readFields_eq, hn]
      rfl
    | inPayload id length part hid hlen =>
      obtain ⟨i₁, hn, hi₁⟩ := Field.next_of_head l.context hid hi
      exact l.readFields_of_refused st hn (l.readField_of_part st hlen hi₁)
  | cons f fs ih =>
    rw [encodeRow_cons, f.encode_eq, List.append_assoc, List.append_assoc] at hi
    obtain ⟨i₁, hn, hi₁⟩ := Field.next_of_head l.context f.id_ne hi
    have hfield := l.readField_of_payload st f hi₁
    -- reading and folding take the same first step
    have hcut : l.readCutting σ st (f :: fs) tail =
        l.absorb st f >>= fun st' => l.readCutting σ st' fs tail := by
      rw [readCutting, absorbAll, List.foldlM_cons, bind_assoc]
      rfl
    rw [hcut]
    cases ha : l.absorb st f with
    | error e =>
      rw [ha] at hfield
      exact l.readFields_of_refused st hn hfield
    | ok st' =>
      rw [ha] at hfield
      obtain ⟨i₂, hok, hi₂⟩ := hfield.eq_ok
      rw [readFields_eq, hn]
      dsimp only
      rw [hok]
      exact ih st' hi₂

/-- Behind a row that is absorbed, a head that is refused decides the reading, whatever follows. -/
theorem readFields_of_headError {fs : List TaggedField} {st' : τ} {id length : UInt32} {e : Error}
    (hid : id ≠ Field.endId) (hfs : l.absorbAll st fs = .ok st')
    (he : l.headError? id length = some e)
    (hi : i.Delivers (encodeRow fs ++ (be32 id ++ be32 length ++ rest)) σ) :
    (l.readFields st i).1 = .error e := by
  by_cases hlen : rest.length < length.toNat
  · -- the payload is cut short, but the head is refused first
    have hread := l.readFields_yields st fs (.inPayload id length rest hid hlen) hi
    rw [readCutting, hfs] at hread
    simp only [he] at hread
    exact hread
  · -- the payload is there, so the head is that of a field in the row
    obtain ⟨f, rfl, rfl, hf⟩ := exists_field hid (Nat.le_of_not_lt hlen)
    obtain ⟨gs, tail, hcut⟩ := exists_cutting (rest.drop f.length.toNat)
    have hbytes : encodeRow fs ++ (be32 f.id ++ be32 f.length ++ rest) =
        encodeRow (fs ++ f :: gs) ++ tail.bytes := by
      rw [encodeRow_append, encodeRow_cons, f.encode_eq]
      simp only [List.append_assoc]
      rw [← hcut, hf, List.take_append_drop]
    rw [hbytes] at hi
    have hrefused : l.absorbAll st (fs ++ f :: gs) = .error e := by
      rw [absorbAll_append, hfs]
      show l.absorbAll st' (f :: gs) = .error e
      rw [absorbAll_cons, absorb, he]
      rfl
    have hread := l.readFields_yields st _ tail hi
    rw [readCutting, hrefused] at hread
    exact hread

end Layout

end RepoSeal
