import RepoSeal.Proofs.KeyFields
import RepoSeal.Proofs.KeyVersions

/-!
# RepoSeal — reading the entries of a key file

Behind its header a key file is a row of lists of fields, one for every entry, up to the end of the
data. Every byte string is such a row, and then either nothing or a list that is not closed
(`exists_entriesCutting`). Reading adds the entries of the row one by one; then the end of the data
counts, or whatever is wrong with the list that is not closed (`readEntries_result`).
-/

namespace RepoSeal

open Reader TaggedField

variable {i : Input} {σ : Input.Setting} {rest : Bytes}

/-! ## One entry -/

namespace KeyEntry

/-- The fields of an entry: all of them may stand there, and none that must is missing. -/
structure EntryFields (fs : List TaggedField) : Prop where
  field : ∀ f ∈ fs, EntryField f
  version : ∃ f ∈ fs, f.id = versionField
  cipherKey : ∃ f ∈ fs, f.id = cipherKeyField
  digestKey : ∃ f ∈ fs, f.id = digestKeyField

/-- The entry that fields stand for: of each kind the last one counts. -/
structure Denotes (fs : List TaggedField) (e : KeyEntry) : Prop where
  version : lastPayload versionField fs = some (be32 e.version)
  cipherKey : lastPayload cipherKeyField fs = some e.cipherKey.toList
  digestKey : lastPayload digestKeyField fs = some e.digestKey.toList

theorem Denotes.unique {fs : List TaggedField} {a b : KeyEntry} (ha : Denotes fs a)
    (hb : Denotes fs b) : a = b := by
  obtain ⟨va, ca, da⟩ := a
  obtain ⟨vb, cb, db⟩ := b
  have hv : va = vb := be32_injective (Option.some.inj (ha.version.symm.trans hb.version))
  have hc : ca = cb := Octets.ext (Option.some.inj (ha.cipherKey.symm.trans hb.cipherKey))
  have hd : da = db := Octets.ext (Option.some.inj (ha.digestKey.symm.trans hb.digestKey))
  rw [hv, hc, hd]

/-- The entry of a draft, in which nothing may be missing. -/
def Draft.whole (d : Draft) : Except Error KeyEntry :=
  match d.entry? with
  | some entry => .ok entry
  | none => .error (.malformed .missingField)

/-- The entry of a list of fields, or what is wrong with them. -/
def ofFields (fs : List TaggedField) : Except Error KeyEntry :=
  layout.absorbAll {} fs >>= Draft.whole

/-- Nothing is missing in a draft if a field of each kind was read. -/
theorem lastPayload_isSome_of_whole {fs : List TaggedField} {e : KeyEntry}
    (h : (draftOf fs).whole = .ok e) :
    (lastPayload versionField fs).isSome ∧ (lastPayload cipherKeyField fs).isSome ∧
      (lastPayload digestKeyField fs).isSome := by
  unfold Draft.whole Draft.entry? draftOf at h
  cases hv : lastPayload versionField fs with
  | none => simp [hv] at h
  | some v =>
    cases hc : lastPayload cipherKeyField fs with
    | none => simp [hv, hc] at h
    | some c =>
      cases hd : lastPayload digestKeyField fs with
      | none => simp [hv, hc, hd] at h
      | some d => exact ⟨rfl, rfl, rfl⟩

/-- The payload of the last field of a kind has the size of that kind. -/
theorem length_lastPayload {id : UInt32} {n : Nat} {fs : List TaggedField}
    (hsize : ∀ f ∈ fs, f.id = id → f.payload.length = n) (h : ∃ f ∈ fs, f.id = id) :
    ∃ b, lastPayload id fs = some b ∧ b.length = n := by
  obtain ⟨b, hb⟩ := Option.isSome_iff_exists.mp (lastPayload_isSome.mpr h)
  obtain ⟨f, hf, hid, rfl⟩ := mem_of_lastPayload hb
  exact ⟨_, hb, hsize f hf hid⟩

/-- The size of a field that may stand in an entry is fixed by its id, if the id is one of the three
that count. -/
theorem EntryField.length_eq {f : TaggedField} (h : EntryField f) {id : UInt32} {n : Nat}
    (hkind : (id, n) ∈ [(versionField, 4), (cipherKeyField, 32), (digestKeyField, 64)])
    (hid : f.id = id) : f.payload.length = n := by
  have hodd : ¬ Even id.toNat := by
    simp only [List.mem_cons, Prod.mk.injEq, List.not_mem_nil, or_false] at hkind
    rcases hkind with ⟨rfl, -⟩ | ⟨rfl, -⟩ | ⟨rfl, -⟩ <;> decide
  subst hid
  rcases h with ⟨hv, hlen⟩ | ⟨hc, hlen⟩ | ⟨hd, hlen⟩ | hskip
  · have hn : n = 4 := by simpa [hv, versionField, cipherKeyField, digestKeyField] using hkind
    rw [hlen, hn]
  · have hn : n = 32 := by simpa [hc, versionField, cipherKeyField, digestKeyField] using hkind
    rw [hlen, hn]
  · have hn : n = 64 := by simpa [hd, versionField, cipherKeyField, digestKeyField] using hkind
    rw [hlen, hn]
  · exact absurd hskip.1 hodd

theorem exists_denotes {fs : List TaggedField} (h : EntryFields fs) :
    ∃ e, Denotes fs e ∧ ofFields fs = .ok e := by
  obtain ⟨v, hv, hvlen⟩ :=
    length_lastPayload (fun f hf => (h.field f hf).length_eq (.head _)) h.version
  obtain ⟨c, hc, hclen⟩ :=
    length_lastPayload (fun f hf => (h.field f hf).length_eq (.tail _ (.head _))) h.cipherKey
  obtain ⟨d, hd, hdlen⟩ :=
    length_lastPayload (fun f hf => (h.field f hf).length_eq (.tail _ (.tail _ (.head _))))
      h.digestKey
  obtain ⟨w, rfl⟩ := exists_be32 hvlen
  refine ⟨⟨w, .ofPrefix 32 c, .ofPrefix 64 d⟩, ⟨hv, ?_, ?_⟩, ?_⟩
  · rw [hc, Octets.toList_ofPrefix hclen]
  · rw [hd, Octets.toList_ofPrefix hdlen]
  · rw [ofFields, entry_absorbAll h.field]
    show (draftOf fs).whole = _
    simp only [Draft.whole, draftOf, hv, hc, hd, Option.map_some, ofBe32_be32]
    rfl

/-- A list of fields is an entry exactly if all that it needs is there and nothing else. -/
theorem ofFields_eq_ok {fs : List TaggedField} {e : KeyEntry} :
    ofFields fs = .ok e ↔ EntryFields fs ∧ Denotes fs e := by
  constructor
  · intro h
    have hfields : EntryFields fs := by
      unfold ofFields at h
      cases habsorb : layout.absorbAll {} fs with
      | error e' =>
        rw [habsorb] at h
        cases h
      | ok draft =>
        -- so the draft is known, and the fields that it was made of are all there
        have hfield : ∀ f ∈ fs, EntryField f := fun f hf =>
          let ⟨d, d', hd⟩ := layout.absorb_of_mem habsorb hf
          entry_absorb_isOk f d ⟨d', hd⟩
        have hdraft : draft = draftOf fs :=
          Except.ok.inj (habsorb.symm.trans (entry_absorbAll hfield))
        rw [habsorb, hdraft] at h
        obtain ⟨hv, hc, hd⟩ := lastPayload_isSome_of_whole h
        exact ⟨hfield, lastPayload_isSome.mp hv, lastPayload_isSome.mp hc, lastPayload_isSome.mp hd⟩
    obtain ⟨e', he', hok⟩ := exists_denotes hfields
    rw [h] at hok
    cases hok
    exact ⟨hfields, he'⟩
  · rintro ⟨hfields, he⟩
    obtain ⟨e', he', hok⟩ := exists_denotes hfields
    rw [hok, he'.unique he]

/-- Reading one entry: what its list of fields comes to, and then whether it is whole. -/
theorem read_yields (fs : List TaggedField) (tail : FieldTail)
    (hi : i.Delivers (encodeRow fs ++ tail.bytes) σ) :
    Yields (read i) σ
      (layout.readCutting σ {} fs tail >>= fun (draft, rest) => draft.whole.map (·, rest)) := by
  have hread := layout.readFields_yields {} fs tail hi
  unfold read
  cases hcut : layout.readCutting σ {} fs tail with
  | error e =>
    rw [hcut] at hread
    obtain ⟨i', hfail⟩ := eq_error_of_fst hread
    rw [hfail]
    rfl
  | ok p =>
    obtain ⟨draft, rest⟩ := p
    rw [hcut] at hread
    obtain ⟨i', hok, hi'⟩ := hread.eq_ok
    rw [hok]
    show Yields (match draft.entry? with | some entry => _ | none => _) σ (draft.whole.map _)
    unfold Draft.whole
    cases draft.entry? with
    | some entry => exact ⟨rfl, hi'⟩
    | none => rfl

/-- Reading an entry whose list is closed. -/
theorem read_of_list (fs : List TaggedField) (hi : i.Delivers (encodeList fs ++ rest) σ) :
    Yields (read i) σ ((ofFields fs).map (·, rest)) := by
  have hbytes : encodeList fs ++ rest = encodeRow fs ++ (FieldTail.closed rest).bytes :=
    List.append_assoc _ _ _
  rw [hbytes] at hi
  -- behind a closed list nothing is left to decide but its fields
  have hread := read_yields fs (.closed rest) hi
  unfold Layout.readCutting at hread
  unfold ofFields
  cases habsorb : layout.absorbAll {} fs with
  | error e =>
    rw [habsorb] at hread
    exact hread
  | ok draft =>
    rw [habsorb] at hread
    exact hread

end KeyEntry

/-! ## The row of entries -/

/-- The bytes of some lists of fields one after the other. -/
def encodeLists (es : List (List TaggedField)) : Bytes := es.flatMap encodeList

@[simp] theorem encodeLists_nil : encodeLists [] = [] := rfl

theorem encodeLists_cons (fs : List TaggedField) (es : List (List TaggedField)) :
    encodeLists (fs :: es) = encodeList fs ++ encodeLists es := rfl

theorem encodeLists_append (es es' : List (List TaggedField)) :
    encodeLists (es ++ es') = encodeLists es ++ encodeLists es' := by
  rw [encodeLists, List.flatMap_append]; rfl

theorem encodeList_ne_nil (fs : List TaggedField) (rest : Bytes) : encodeList fs ++ rest ≠ [] := by
  intro h
  have hlen := congrArg List.length h
  simp only [encodeList, Field.endMark, List.length_append, length_be32, List.length_nil] at hlen
  omega

/-- What stands behind the last whole list of a row. -/
inductive EntriesTail
  | ended
  /-- A list of fields that is not closed. -/
  | cut (fs : List TaggedField) (tail : FieldTail) (not_closed : ∀ rest, tail ≠ .closed rest)
      (ne_nil : encodeRow fs ++ tail.bytes ≠ [])

def EntriesTail.bytes : EntriesTail → Bytes
  | ended => []
  | cut fs tail _ _ => encodeRow fs ++ tail.bytes

/-- Every byte string is a row of lists and a tail. -/
theorem exists_entriesCutting (b : Bytes) :
    ∃ (es : List (List TaggedField)) (tail : EntriesTail), b = encodeLists es ++ tail.bytes := by
  induction hn : b.length using Nat.strongRecOn generalizing b with
  | ind n ih =>
    by_cases hnil : b = []
    · exact ⟨[], .ended, hnil⟩
    obtain ⟨fs, tail, hb⟩ := exists_cutting b
    by_cases hclosed : ∃ rest, tail = .closed rest
    · obtain ⟨rest, rfl⟩ := hclosed
      have hlist : b = encodeList fs ++ rest := by
        rw [hb, encodeList, List.append_assoc]
        rfl
      -- an end mark has been passed, so less is left
      have hshort : rest.length < n := by
        rw [← hn, hlist, encodeList, Field.endMark]
        simp only [List.length_append, length_be32]
        omega
      obtain ⟨es, tail', hrest⟩ := ih _ hshort rest rfl
      exact ⟨fs :: es, tail', by rw [hlist, encodeLists_cons, List.append_assoc, ← hrest]⟩
    · -- a list that is not closed reaches to the end of the data
      have hopen : ∀ rest, tail ≠ .closed rest := fun rest h => hclosed ⟨rest, h⟩
      exact ⟨[], .cut fs tail hopen (hb ▸ hnil), hb⟩

namespace KeyFile

/-- Adds the entries that lists of fields stand for. -/
def addLists (kf : KeyFile) (es : List (List TaggedField)) : Except Error KeyFile :=
  es.foldlM (fun kf fs => KeyEntry.ofFields fs >>= kf.add) kf

theorem addLists_cons (kf : KeyFile) (fs : List TaggedField) (es : List (List TaggedField)) :
    kf.addLists (fs :: es) = KeyEntry.ofFields fs >>= kf.add >>= fun kf' => kf'.addLists es :=
  List.foldlM_cons

/-- What counts after the last whole list: the end of the data, or what is wrong with a list that is
not closed. -/
def closeWith (σ : Input.Setting) (tail : EntriesTail) (kf : KeyFile) : Except Error KeyFile :=
  match tail with
  | .ended =>
    match σ.ending with
    | some fault => .error (.io fault)
    | none => .ok kf
  | .cut fs tail _ _ => KeyEntry.layout.readCutting σ {} fs tail >>= fun _ => .ok kf

/-- A list that is not closed is not read. -/
theorem exists_readCutting_error (σ : Input.Setting) (fs : List TaggedField) {tail : FieldTail}
    (h : ∀ rest, tail ≠ .closed rest) :
    ∃ e, KeyEntry.layout.readCutting σ {} fs tail = .error e := by
  unfold Layout.readCutting
  cases KeyEntry.layout.absorbAll {} fs with
  | error e => exact ⟨e, rfl⟩
  | ok draft =>
    cases tail with
    | closed rest => exact absurd rfl (h rest)
    | inHead => exact ⟨_, rfl⟩
    | inPayload => exact ⟨_, rfl⟩

theorem readEntriesInto_eq {α : Type} (add : α → KeyEntry → Except Error α) (made : α) (i : Input) :
    readEntriesInto add made i =
      match Reader.atEnd.on i with
      | (.error e, i') => (.error e, i')
      | (.ok true, i') => (.ok made, i')
      | (.ok false, i₁) =>
        match KeyEntry.read i₁ with
        | (.error e, i') => (.error e, i')
        | (.ok entry, i₂) =>
          match add made entry with
          | .error e => (.error e, i₂)
          | .ok made' => readEntriesInto add made' i₂ := by
  rw [readEntriesInto]
  split
  · rename_i h
    rw [h]
  · rename_i h
    rw [h]
  · rename_i h
    rw [h]
    dsimp only
    split
    · rename_i hr
      exact hr ▸ rfl
    · rename_i hr
      exact hr ▸ rfl

theorem readEntries_eq (kf : KeyFile) (i : Input) :
    readEntries kf i =
      match Reader.atEnd.on i with
      | (.error e, i') => (.error e, i')
      | (.ok true, i') => (.ok kf, i')
      | (.ok false, i₁) =>
        match KeyEntry.read i₁ with
        | (.error e, i') => (.error e, i')
        | (.ok entry, i₂) =>
          match kf.add entry with
          | .error e => (.error e, i₂)
          | .ok kf' => readEntries kf' i₂ := by
  rw [readEntries, readEntriesInto_eq]
  rcases Reader.atEnd.on i with ⟨_ | ended, i₁⟩
  · rfl
  cases ended with
  | true => rfl
  | false =>
    dsimp only
    rcases KeyEntry.read i₁ with ⟨_ | entry, i₂⟩
    · rfl
    dsimp only
    cases kf.add entry <;> rfl

/-- Reading a list of the row adds the entry it stands for, and goes on behind it. -/
theorem readEntries_step (hσ : σ.Quiet) (kf : KeyFile) (fs : List TaggedField)
    (hi : i.Delivers (encodeList fs ++ rest) σ) :
    (∀ e, KeyEntry.ofFields fs >>= kf.add = .error e → (readEntries kf i).1 = .error e) ∧
      ∀ kf', KeyEntry.ofFields fs >>= kf.add = .ok kf' →
        ∃ i', i'.Delivers rest σ ∧ readEntries kf i = readEntries kf' i' := by
  -- the data is not at its end: even an empty list has its end mark
  obtain ⟨i₁, hend, hi₁⟩ := atEnd_of_ne_nil hσ hi (encodeList_ne_nil fs rest)
  have hread := KeyEntry.read_of_list fs hi₁
  rw [readEntries_eq, hend]
  dsimp only
  cases hentry : KeyEntry.ofFields fs with
  | error e =>
    rw [hentry] at hread
    obtain ⟨i₂, hfail⟩ := eq_error_of_fst hread
    rw [hfail]
    exact ⟨fun e' he' => he', fun kf' h => (by cases h)⟩
  | ok entry =>
    rw [hentry] at hread
    obtain ⟨i₂, hok, hi₂⟩ := hread.eq_ok
    rw [hok]
    show (∀ e, kf.add entry = .error e → _) ∧ (∀ kf', kf.add entry = .ok kf' → _)
    dsimp only
    cases kf.add entry with
    | error e => exact ⟨fun e' he' => he', fun kf' h => (by cases h)⟩
    | ok kf₁ => exact ⟨fun e h => (by cases h), fun kf' h => ⟨i₂, hi₂, by cases h; rfl⟩⟩

/-- Lists that can be added are read, and reading goes on behind them. -/
theorem readEntries_of_lists (hσ : σ.Quiet) {es : List (List TaggedField)} {kf kf' : KeyFile}
    (hes : kf.addLists es = .ok kf') (hi : i.Delivers (encodeLists es ++ rest) σ) :
    ∃ i', i'.Delivers rest σ ∧ readEntries kf i = readEntries kf' i' := by
  induction es generalizing kf i with
  | nil =>
    cases hes
    exact ⟨i, hi, rfl⟩
  | cons fs es ih =>
    rw [encodeLists_cons, List.append_assoc] at hi
    rw [addLists_cons] at hes
    cases hstep : KeyEntry.ofFields fs >>= kf.add with
    | error e =>
      rw [hstep] at hes
      cases hes
    | ok kf₁ =>
      rw [hstep] at hes
      obtain ⟨i₁, hi₁, hread⟩ := (readEntries_step hσ kf fs hi).2 kf₁ hstep
      rw [hread]
      exact ih hes hi₁

/-- A list that is not closed fails to be read. -/
theorem readEntries_of_cut (hσ : σ.Quiet) (kf : KeyFile) {fs : List TaggedField} {tail : FieldTail}
    {e : Error} (hne : encodeRow fs ++ tail.bytes ≠ [])
    (he : KeyEntry.layout.readCutting σ {} fs tail = .error e)
    (hi : i.Delivers (encodeRow fs ++ tail.bytes) σ) : (readEntries kf i).1 = .error e := by
  obtain ⟨i₁, hend, hi₁⟩ := atEnd_of_ne_nil hσ hi hne
  have hread := KeyEntry.read_yields fs tail hi₁
  rw [he] at hread
  obtain ⟨i', hfail⟩ := eq_error_of_fst hread
  rw [readEntries_eq, hend]
  dsimp only
  rw [hfail]

/-- In an entry, a head that is refused decides the reading, whatever follows. -/
theorem readEntries_of_headError (hσ : σ.Quiet) (kf : KeyFile) {fs : List TaggedField}
    {d : KeyEntry.Draft} {id length : UInt32} {e : Error} (hid : id ≠ Field.endId)
    (hfs : KeyEntry.layout.absorbAll {} fs = .ok d)
    (he : KeyEntry.layout.headError? id length = some e)
    (hi : i.Delivers (encodeRow fs ++ (be32 id ++ be32 length ++ rest)) σ) :
    (readEntries kf i).1 = .error e := by
  have hne : encodeRow fs ++ (be32 id ++ be32 length ++ rest) ≠ [] := by
    intro hnil
    have hlen := congrArg List.length hnil
    simp only [List.length_append, length_be32, List.length_nil] at hlen
    omega
  obtain ⟨i₁, hend, hi₁⟩ := atEnd_of_ne_nil hσ hi hne
  obtain ⟨i', hfail⟩ :=
    eq_error_of_fst (KeyEntry.layout.readFields_of_headError {} hid hfs he hi₁)
  rw [readEntries_eq, hend]
  dsimp only
  rw [KeyEntry.read, hfail]

/-- At the end of the data the entries are complete, unless there is a fault behind the last byte. -/
theorem readEntries_of_nil (hσ : σ.Quiet) (kf : KeyFile) (hi : i.Delivers [] σ) :
    (readEntries kf i).1 = closeWith σ .ended kf := by
  have hend := atEnd_of_nil hσ hi
  rw [readEntries_eq]
  unfold closeWith
  cases hfault : σ.ending with
  | none =>
    rw [hfault] at hend
    obtain ⟨i', hok, -⟩ := hend.eq_ok
    rw [hok]
  | some fault =>
    rw [hfault] at hend
    obtain ⟨i', hfail⟩ := eq_error_of_fst hend
    rw [hfail]

/-- **What reading the entries comes to.** The lists of the row are added one by one, and then what
stands behind them counts. -/
theorem readEntries_result (hσ : σ.Quiet) (es : List (List TaggedField)) (tail : EntriesTail)
    (kf : KeyFile) (hi : i.Delivers (encodeLists es ++ tail.bytes) σ) :
    (readEntries kf i).1 = kf.addLists es >>= closeWith σ tail := by
  induction es generalizing kf i with
  | nil =>
    rw [encodeLists_nil, List.nil_append] at hi
    cases tail with
    | ended => exact readEntries_of_nil hσ kf hi
    | cut fs tail hopen hne =>
      obtain ⟨e, he⟩ := exists_readCutting_error σ fs hopen
      rw [readEntries_of_cut hσ kf hne he hi]
      show _ = KeyEntry.layout.readCutting σ {} fs tail >>= fun _ => .ok kf
      rw [he]
      rfl
  | cons fs es ih =>
    rw [encodeLists_cons, List.append_assoc] at hi
    obtain ⟨hfail, hgo⟩ := readEntries_step hσ kf fs hi
    rw [addLists_cons]
    cases hstep : KeyEntry.ofFields fs >>= kf.add with
    | error e => exact hfail e hstep
    | ok kf' =>
      obtain ⟨i₁, hi₁, hread⟩ := hgo kf' hstep
      rw [hread]
      exact ih kf' hi₁

end KeyFile

end RepoSeal
