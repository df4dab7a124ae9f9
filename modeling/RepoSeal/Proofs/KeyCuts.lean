import RepoSeal.Proofs.KeyFaults

/-!
# RepoSeal — key files that are cut

A sink that refuses the rest leaves a front part of a key file. Such a part is cut in the preamble or
the header, between two entries, or inside an entry. Every cut inside something is noticed, for a list
of fields is closed by its end mark and no front part of it is (`exists_cut_of_lt`). A cut between two
entries is not: the data just ends there, and what is read is the same key without its oldest versions
(`decode_take`).
-/

namespace RepoSeal

open TaggedField

/-! ## Parts of a list of fields -/

/-- A front part of two byte strings ends inside the first, or behind it. -/
theorem take_append_cases (a b : Bytes) (n : Nat) :
    (n < a.length ∧ (a ++ b).take n = a.take n) ∨
      ∃ k, n = a.length + k ∧ (a ++ b).take n = a ++ b.take k := by
  by_cases hn : n < a.length
  · exact .inl ⟨hn, List.take_append_of_le_length (Nat.le_of_lt hn)⟩
  · obtain ⟨k, rfl⟩ := Nat.exists_eq_add_of_le (Nat.le_of_not_lt hn)
    exact .inr ⟨k, rfl, List.take_length_add_append k⟩

namespace Layout

variable {τ : Type} {l : Layout τ}

theorem headError?_of_absorb {st st' : τ} {f : TaggedField} (h : l.absorb st f = .ok st') :
    l.headError? f.id f.length = none := by
  unfold absorb at h
  split at h
  · cases h
  · rename_i hnone
    exact hnone

/-- A front part of one field, whose head is no reason to refuse it, is refused for its end alone. -/
theorem exists_cut_of_field {f : TaggedField} (hf : l.headError? f.id f.length = none) {n : Nat}
    (hn : n < f.encode.length) :
    ∃ (tail : FieldTail) (how : Passage), f.encode.take n = tail.bytes ∧
      (∀ rest, tail ≠ .closed rest) ∧
      ∀ σ st, l.readCutting σ st [] tail = .error (σ.cutShort how l.context) := by
  have hhead : (be32 f.id ++ be32 f.length).length = 8 := by
    rw [List.length_append, length_be32, length_be32]
  rw [TaggedField.length_encode] at hn
  rw [f.encode_eq]
  rcases take_append_cases (be32 f.id ++ be32 f.length) f.payload n with
    ⟨hlt, htake⟩ | ⟨k, rfl, htake⟩
  · -- no part of the head is an end mark, for the id is not that of the end
    have hend : ¬ Field.endMark <+: (be32 f.id ++ be32 f.length).take n := by
      intro h
      obtain ⟨rest, hrest⟩ := h.trans (List.take_prefix n _)
      have hid : Field.endMark = be32 f.id := (List.append_inj hrest rfl).1
      exact f.id_ne (be32_injective hid).symm
    have hpart : ((be32 f.id ++ be32 f.length).take n).length < 8 := by
      rw [List.length_take, hhead]
      omega
    exact ⟨.inHead _ hpart hend, .taken, htake, (by intro rest h; cases h), fun σ st => rfl⟩
  · have hpart : (f.payload.take k).length < f.length.toNat := by
      rw [f.toNat_length, List.length_take]
      omega
    refine ⟨.inPayload f.id f.length (f.payload.take k) f.id_ne hpart, l.passage f.id, htake,
      (by intro rest h; cases h), fun σ st => ?_⟩
    show Except.error ((l.headError? f.id f.length).getD (σ.cutShort (l.passage f.id) l.context)) = _
    rw [hf]
    rfl

/-- A front part of a list whose fields are absorbed is refused for its end alone. -/
theorem exists_cut_of_lt {fs : List TaggedField} {st st' : τ} (h : l.absorbAll st fs = .ok st')
    {n : Nat} (hn : n < (encodeList fs).length) :
    ∃ (front : List TaggedField) (tail : FieldTail) (how : Passage),
      (encodeList fs).take n = encodeRow front ++ tail.bytes ∧ (∀ rest, tail ≠ .closed rest) ∧
      ∀ σ, l.readCutting σ st front tail = .error (σ.cutShort how l.context) := by
  induction fs generalizing st n with
  | nil =>
    -- less than the end mark is left
    have hmark : Field.endMark.length = 4 := rfl
    rw [encodeList, encodeRow_nil, List.nil_append] at hn ⊢
    have hlen : (Field.endMark.take n).length = n := by
      rw [List.length_take, Nat.min_eq_left (Nat.le_of_lt hn)]
    have hend : ¬ Field.endMark <+: Field.endMark.take n := fun h => by
      have := h.length_le
      omega
    exact ⟨[], .inHead (Field.endMark.take n) (by omega) hend, .taken, rfl,
      (by intro rest h; cases h), fun σ => rfl⟩
  | cons f fs ih =>
    rw [absorbAll_cons] at h
    cases ha : l.absorb st f with
    | error e =>
      rw [ha] at h
      cases h
    | ok st₁ =>
      rw [ha] at h
      have hlist : encodeList (f :: fs) = f.encode ++ encodeList fs := by
        rw [encodeList, encodeRow_cons, List.append_assoc]
        rfl
      rw [hlist] at hn ⊢
      rcases take_append_cases f.encode (encodeList fs) n with ⟨hlt, htake⟩ | ⟨k, rfl, htake⟩
      · obtain ⟨tail, how, hbytes, hopen, hcut⟩ := exists_cut_of_field (headError?_of_absorb ha) hlt
        exact ⟨[], tail, how, htake.trans hbytes, hopen, fun σ => hcut σ st⟩
      · rw [List.length_append] at hn
        obtain ⟨front, tail, how, hbytes, hopen, hcut⟩ := ih h (Nat.lt_of_add_lt_add_left hn)
        refine ⟨f :: front, tail, how, ?_, hopen, fun σ => ?_⟩
        · rw [htake, hbytes, encodeRow_cons, List.append_assoc]
        · rw [readCutting, absorbAll_cons, ha]
          exact hcut σ

end Layout

/-! ## Parts of the entries -/

namespace KeyEntry

/-- A front part of some entries is the first of them, and then a part of the next one. -/
theorem exists_take_entries {es : List KeyEntry} {n : Nat}
    (hn : n < (es.flatMap encode).length) :
    ∃ (j : Nat) (e : KeyEntry) (k : Nat), k < e.encode.length ∧
      n = ((es.take j).flatMap encode).length + k ∧
      (es.flatMap encode).take n = (es.take j).flatMap encode ++ e.encode.take k := by
  induction es generalizing n with
  | nil => exact absurd hn (Nat.not_lt_zero n)
  | cons e es ih =>
    rw [List.flatMap_cons] at hn ⊢
    rcases take_append_cases e.encode (es.flatMap encode) n with ⟨hlt, htake⟩ | ⟨k, rfl, htake⟩
    · exact ⟨0, e, n, hlt, (Nat.zero_add n).symm, htake⟩
    · rw [List.length_append] at hn
      obtain ⟨j, x, m, hm, hlen, hbytes⟩ := ih (Nat.lt_of_add_lt_add_left hn)
      refine ⟨j + 1, x, m, hm, ?_, ?_⟩
      · rw [List.take_succ_cons, List.flatMap_cons, List.length_append, hlen, Nat.add_assoc]
      · rw [htake, hbytes, List.take_succ_cons, List.flatMap_cons, List.append_assoc]

end KeyEntry

/-! ## Parts of a key file -/

namespace KeyFile

/-- What is written in front of the entries. -/
def header (kf : KeyFile) : Bytes :=
  magic ++ be32 formatVersion ++ encodeName kf.name ++ Field.endMark

theorem encode_eq_header (kf : KeyFile) :
    kf.encode = kf.header ++ kf.entries.flatMap KeyEntry.encode := rfl

theorem header_eq (kf : KeyFile) :
    kf.header = preamble formatVersion ++ encodeList (nameFields kf.name) := by
  rw [header, List.append_assoc, ← preamble]
  cases kf.name with
  | none => rfl
  | some n =>
    rw [nameFields, encodeList, encodeRow_cons, encodeRow_nil, List.append_nil]
    rfl

/-- The same key with only its `j` newest versions. -/
def newest (kf : KeyFile) (j : Nat) : KeyFile where
  name := kf.name
  entries := kf.entries.take j
  descending := kf.descending.sublist (List.take_sublist j kf.entries)

/-- Where a written key file stands behind the end mark of its header, or of its `j`th entry. -/
def boundary (kf : KeyFile) (j : Nat) : Nat :=
  kf.header.length + ((kf.entries.take j).flatMap KeyEntry.encode).length

theorem boundary_eq_length (kf : KeyFile) (j : Nat) :
    kf.boundary j = (kf.newest j).encode.length := by
  rw [boundary, encode_eq_header, List.length_append]
  rfl

/-- Up to a boundary, a key file is written as its newest versions are. -/
theorem take_boundary (kf : KeyFile) (j : Nat) :
    kf.encode.take (kf.boundary j) = (kf.newest j).encode := by
  have hsplit : kf.encode =
      (kf.newest j).encode ++ (kf.entries.drop j).flatMap KeyEntry.encode := by
    rw [encode_eq_header, encode_eq_header, List.append_assoc]
    show kf.header ++ _ = kf.header ++ ((kf.entries.take j).flatMap KeyEntry.encode ++ _)
    rw [← List.flatMap_append, List.take_append_drop]
  rw [boundary_eq_length, hsplit, List.take_left]

/-- Behind a boundary that is not the end of the data there are entries left. -/
theorem lt_length_of_boundary_lt {kf : KeyFile} {j : Nat} (h : kf.boundary j < kf.encode.length) :
    j < kf.entries.length := by
  by_contra hj
  have hall : kf.newest j = kf := ext_of_mem rfl fun e => by
    show e ∈ kf.entries.take j ↔ e ∈ kf.entries
    rw [List.take_of_length_le (Nat.le_of_not_lt hj)]
  rw [boundary_eq_length, hall] at h
  exact Nat.lt_irrefl _ h

theorem absorbAll_nameFields (kf : KeyFile) :
    headerLayout.absorbAll none (nameFields kf.name) = .ok kf.name := by
  obtain ⟨name, kf', hheader, hadd, hden⟩ := exists_denotes kf.grammatical_encode
  have hsame : kf' = kf := hden.unique kf.denotes_encode
  have hname : kf'.name = name := (addable_of_addLists hadd).2.1
  rw [hheader, ← hname, hsame]

/-- A part of a key file that ends before its entries is refused for its end. -/
theorem decode_take_header (kf : KeyFile) {n : Nat} (hn : n < kf.header.length) :
    decode (kf.encode.take n) = .error (.malformed (.truncated headerContext)) := by
  have htake : kf.encode.take n = kf.header.take n :=
    List.take_append_of_le_length (Nat.le_of_lt hn)
  rw [htake]
  have hi := Input.delivers_ofBytes (kf.header.take n)
  have hpreamble : (preamble formatVersion).length = 16 := by
    rw [preamble, List.length_append, length_magic, length_be32]
  by_cases hshort : n < 16
  · refine load_of_short hi ?_
    rw [List.length_take]
    omega
  · -- the preamble is there, and the list of header fields is cut
    rw [kf.header_eq] at hn hi ⊢
    rcases take_append_cases (preamble formatVersion) (encodeList (nameFields kf.name)) n with
      ⟨hlt, -⟩ | ⟨k, rfl, htake⟩
    · omega
    · rw [List.length_append] at hn
      obtain ⟨front, tail, how, hbytes, -, hcut⟩ :=
        Layout.exists_cut_of_lt kf.absorbAll_nameFields (Nat.lt_of_add_lt_add_left hn)
      have hrefused := hcut .memory
      rw [Input.Setting.cutShort_memory] at hrefused
      rw [htake, hbytes] at hi ⊢
      exact load_of_headerCutting hrefused hi

/-- A part of a key file that ends inside an entry is refused for its end. -/
theorem decode_take_entry (kf : KeyFile) {j k : Nat} {e : KeyEntry} (hpos : 0 < k)
    (hk : k < e.encode.length) :
    decode ((kf.newest j).encode ++ e.encode.take k) =
      .error (.malformed (.truncated KeyEntry.context)) := by
  obtain ⟨draft, hdraft⟩ : ∃ draft, KeyEntry.layout.absorbAll {} e.fields = .ok draft :=
    ⟨_, KeyEntry.entry_absorbAll e.entryFields_fields.field⟩
  rw [e.encode_eq_encodeList] at hk ⊢
  obtain ⟨front, tail, how, hbytes, hopen, hcut⟩ := Layout.exists_cut_of_lt hdraft hk
  have hne : encodeRow front ++ tail.bytes ≠ [] := by
    rw [← hbytes]
    intro hnil
    have hlen := congrArg List.length hnil
    rw [List.length_take, List.length_nil] at hlen
    omega
  obtain ⟨name, kf', hheader, hadd, -⟩ := exists_denotes (kf.newest j).grammatical_encode
  -- behind the header there are the entries that are whole, and then the one that is cut
  have hshape : (kf.newest j).encode ++ (encodeList e.fields).take k =
      preamble formatVersion ++ (encodeList (nameFields (kf.newest j).name) ++
        (encodeLists ((kf.newest j).entries.map KeyEntry.fields) ++
          (EntriesTail.cut front tail hopen hne).bytes)) := by
    rw [(kf.newest j).grammatical_encode.bytes_eq, hbytes]
    simp only [preamble, EntriesTail.bytes, List.append_assoc]
  have hi := Input.delivers_ofBytes ((kf.newest j).encode ++ (encodeList e.fields).take k)
  rw [hshape] at hi ⊢
  obtain ⟨i, hi', hload⟩ := load_of_header hheader hi
  rw [decode, hload, readEntries_result Input.Setting.quiet_memory _ _ _ hi', hadd]
  show (KeyEntry.layout.readCutting _ {} front tail >>= fun _ => _) = _
  rw [hcut, Input.Setting.cutShort_memory]
  rfl

/-- A part of a key file that ends at no boundary is refused for its end. -/
theorem decode_take_of_ne_boundary (kf : KeyFile) {n : Nat} (hn : n < kf.encode.length)
    (h : ∀ j, n ≠ kf.boundary j) :
    ∃ context, decode (kf.encode.take n) = .error (.malformed (.truncated context)) := by
  rw [encode_eq_header] at hn ⊢
  rcases take_append_cases kf.header (kf.entries.flatMap KeyEntry.encode) n with
    ⟨hlt, -⟩ | ⟨k, rfl, htake⟩
  · exact ⟨headerContext, kf.decode_take_header hlt⟩
  · rw [List.length_append] at hn
    obtain ⟨j, e, m, hm, rfl, hentries⟩ :=
      KeyEntry.exists_take_entries (Nat.lt_of_add_lt_add_left hn)
    have hpos : 0 < m := Nat.pos_of_ne_zero fun hzero => h j (by rw [hzero]; rfl)
    refine ⟨KeyEntry.context, ?_⟩
    rw [htake, hentries, ← List.append_assoc]
    exact kf.decode_take_entry hpos hm

/-- A sink that has room for the front part only is left with it. -/
theorem store_of_room (kf : KeyFile) {sink : Sink} {n : Nat} (hn : n < kf.encode.length)
    (hroom : sink.room kf.encode.length = n) :
    ∃ sink', kf.store sink = (.error (.io sink.refusal), sink') ∧
      sink'.bytes = sink.bytes ++ kf.encode.take n := by
  refine ⟨(sink.write kf.encode).2, ?_, ?_⟩
  · unfold store Sink.write
    dsimp only
    rw [if_neg (by omega)]
  · rw [Sink.bytes_write, hroom]

/-- **What a cut key file is read as.** A sink that refuses the rest of a key file holds a front part of
it. If the part ends behind the end mark of the header or of an entry, it is read as the same key with
the versions that are there, which are the newest; if it ends anywhere else, it is refused for its end.
Nothing else comes out: not the whole key file, no entry that it does not have, and no claim to be of a
newer format. -/
theorem decode_take (kf : KeyFile) (n : Nat) (hn : n < kf.encode.length) :
    (∀ sink : Sink, sink.room kf.encode.length = n →
      ∃ sink', kf.store sink = (.error (.io sink.refusal), sink') ∧
        sink'.bytes = sink.bytes ++ kf.encode.take n) ∧
    (∀ j, n = kf.boundary j →
      j < kf.entries.length ∧ decode (kf.encode.take n) = .ok (kf.newest j)) ∧
    ((∀ j, n ≠ kf.boundary j) →
      ∃ context, decode (kf.encode.take n) = .error (.malformed (.truncated context))) ∧
    decode (kf.encode.take n) ≠ .ok kf ∧
    (∀ kf', decode (kf.encode.take n) = .ok kf' →
      kf'.name = kf.name ∧ kf'.entries <+: kf.entries) ∧
    ∀ cause, decode (kf.encode.take n) ≠ .error (.incompatible cause) := by
  have hat : ∀ j, n = kf.boundary j →
      j < kf.entries.length ∧ decode (kf.encode.take n) = .ok (kf.newest j) := by
    rintro j rfl
    refine ⟨lt_length_of_boundary_lt hn, ?_⟩
    rw [take_boundary, decode_encode]
  have hoff := fun h => kf.decode_take_of_ne_boundary hn h
  -- either way the result is known
  have hcases : (∃ j, j < kf.entries.length ∧ decode (kf.encode.take n) = .ok (kf.newest j)) ∨
      ∃ context, decode (kf.encode.take n) = .error (.malformed (.truncated context)) := by
    by_cases h : ∃ j, n = kf.boundary j
    · obtain ⟨j, hj⟩ := h
      exact .inl ⟨j, hat j hj⟩
    · exact .inr (hoff fun j hj => h ⟨j, hj⟩)
  refine ⟨fun sink hroom => kf.store_of_room hn hroom, hat, hoff, fun hself => ?_,
    fun kf' hkf' => ?_, fun cause herror => ?_⟩
  · rcases hcases with ⟨j, hj, hok⟩ | ⟨context, herror⟩
    · have hlen := congrArg (fun k => k.entries.length) (Except.ok.inj (hok.symm.trans hself))
      simp only [newest, List.length_take] at hlen
      omega
    · cases hself.symm.trans herror
  · rcases hcases with ⟨j, -, hok⟩ | ⟨context, herror⟩
    · cases hok.symm.trans hkf'
      exact ⟨rfl, List.take_prefix j _⟩
    · cases hkf'.symm.trans herror
  · rcases hcases with ⟨j, -, hok⟩ | ⟨context, hmalformed⟩
    · cases hok.symm.trans herror
    · cases hmalformed.symm.trans herror

/-- A key of two versions, cut behind the newer one: the older one is lost without a word. -/
theorem decode_take_betweenEntries :
    let first : KeyEntry := ⟨0, .replicate 32 7, .replicate 64 9⟩
    let latest : KeyEntry := ⟨3, .replicate 32 1, .replicate 64 2⟩
    let kf : KeyFile := ⟨none, [latest, first], by decide⟩
    kf.boundary 1 < kf.encode.length ∧ kf.get? 0 = some first ∧
      decode (kf.encode.take (kf.boundary 1)) = .ok (kf.newest 1) ∧ (kf.newest 1).get? 0 = none := by
  intro first latest kf
  have hlt : kf.boundary 1 < kf.encode.length := by
    rw [boundary, encode_eq_header, List.length_append]
    simp [kf, KeyEntry.length_encode]
  exact ⟨hlt, by decide, ((decode_take kf _ hlt).2.1 1 rfl).2, by decide⟩

end KeyFile

end RepoSeal
