import RepoSeal.Proofs.KeyCanonical

/-!
# RepoSeal — key data that breaks off

A source may fail for good instead of reporting the end of its data. A parser meets the fault in two
places: where the data ends too soon for it, and where it looks for the end behind the last entry. So
whatever the bytes are refused for stays the reason, unless it is that they end too soon; and data that
could be read gives way to the fault, so that no key comes out of a part of the data (`load_eq_report`).
Unframed keys are read the same way (`loadLegacy_eq_report`).

A source can say by its fault that the data ends. Where bytes are taken such a fault counts as the end
of the data, so data that is too short is called so; only inside the payload of a field that is passed
over (`EndsInPassed`) the fault is told as it is.
-/

namespace RepoSeal

open Reader

variable {i j : Input} {σ : Input.Setting} {b rest : Bytes}

/-- Whether data is refused for its end alone. -/
def Error.isTruncated : Error → Bool
  | .malformed (.truncated _) => true
  | _ => false

/-- What is told of data that comes to `r` and then breaks off, where the bytes that are missing were
to be taken or to be passed over. -/
def brokenOff {α : Type} (fault : Fault) (how : Passage) (r : Except Error α) : Except Error α :=
  match r with
  | .ok _ => .error (.io fault)
  | .error e =>
    if e.isTruncated = false ∨ how = .taken ∧ fault.kind = .unexpectedEnd then .error e
    else .error (.io fault)

/-- Data that breaks off is not good, and it is too short only if the fault says so. -/
theorem exists_brokenOff {α : Type} (fault : Fault) (how : Passage) (r : Except Error α) :
    ∃ e, brokenOff fault how r = .error e ∧
      (e.isTruncated = true → fault.kind = .unexpectedEnd) := by
  cases r with
  | ok x => exact ⟨.io fault, rfl, fun h => (by cases h)⟩
  | error e =>
    by_cases he : e.isTruncated = false ∨ how = .taken ∧ fault.kind = .unexpectedEnd
    · refine ⟨e, if_pos he, fun htrunc => ?_⟩
      rcases he with hown | hend
      · cases hown.symm.trans htrunc
      · exact hend.2
    · exact ⟨.io fault, if_neg he, fun h => (by cases h)⟩

namespace Input.Setting

/-- What is told of data that comes to `r`, where the end of the data may be a fault. -/
def report {α : Type} (σ : Setting) (how : Passage) (r : Except Error α) : Except Error α :=
  match σ.ending with
  | none => r
  | some fault => brokenOff fault how r

theorem report_error {α : Type} {e : Error} (h : e.isTruncated = false) (how : Passage) :
    σ.report how (.error e : Except Error α) = .error e := by
  unfold report
  split
  · rfl
  · exact if_pos (.inl h)

theorem report_cutShort {α : Type} (how : Passage) (context : String) :
    σ.report how (.error (memory.cutShort how context) : Except Error α) =
      .error (σ.cutShort how context) := by
  rw [cutShort_memory]
  unfold report cutShort
  cases σ.ending with
  | none => rfl
  | some fault =>
    dsimp only
    cases how with
    | taken =>
      -- the fault may say what would have been told without it
      rw [if_pos rfl, Reader.shortfall, brokenOff]
      by_cases hend : fault.kind = .unexpectedEnd
      · rw [if_pos hend, if_pos (.inr ⟨rfl, hend⟩)]
      · rw [if_neg hend, if_neg (by simp [Error.isTruncated, hend])]
    | passedOver => rfl

end Input.Setting

/-! ## Lists of fields -/

namespace Layout

variable {τ : Type} {l : Layout τ} {st : τ} {e : Error}

/-- What the rules of a layout refuse, they refuse for the field itself and never for the end of the
data. -/
structure OwnFlaws (l : Layout τ) : Prop where
  length : ∀ {id rule}, l.rule id = some rule → ∀ {length flaw}, rule.lengthFlaw length = some flaw →
    (Error.malformed flaw).isTruncated = false
  store : ∀ {id rule}, l.rule id = some rule → ∀ {st payload flaw},
    rule.store st payload = .error flaw → (Error.malformed flaw).isTruncated = false

theorem not_truncated_of_headError? (hl : l.OwnFlaws) {id length : UInt32}
    (h : l.headError? id length = some e) : e.isTruncated = false := by
  unfold headError? at h
  split at h
  · split at h
    · cases h
      rfl
    · split at h
      · cases h
        rfl
      · cases h
  · rename_i rule hrule
    obtain ⟨flaw, hflaw, rfl⟩ := Option.map_eq_some_iff.mp h
    exact hl.length hrule hflaw

theorem not_truncated_of_absorb (hl : l.OwnFlaws) {f : TaggedField} (h : l.absorb st f = .error e) :
    e.isTruncated = false := by
  unfold absorb at h
  split at h
  · rename_i hhead
    cases h
    exact not_truncated_of_headError? hl hhead
  · split at h
    · cases h
    · rename_i rule hrule
      cases hstore : rule.store st f.payload with
      | ok st' =>
        rw [hstore] at h
        cases h
      | error flaw =>
        rw [hstore] at h
        cases h
        exact hl.store hrule hstore

theorem not_truncated_of_absorbAll (hl : l.OwnFlaws) {fs : List TaggedField}
    (h : l.absorbAll st fs = .error e) : e.isTruncated = false := by
  obtain ⟨front, f, back, st', -, -, hf⟩ := l.exists_refused h
  exact not_truncated_of_absorb hl hf

/-- A row that is absorbed, and behind it a part of a field that is passed over. -/
def EndsInPassed (l : Layout τ) (st : τ) (fs : List TaggedField) (tail : FieldTail) : Prop :=
  (∃ st', l.absorbAll st fs = .ok st') ∧
    ∃ id length part hid hlen, tail = .inPayload id length part hid hlen ∧ l.rule id = none ∧
      l.headError? id length = none

theorem readCutting_of_endsInPassed {fs : List TaggedField} {tail : FieldTail}
    (h : l.EndsInPassed st fs tail) (σ : Input.Setting) :
    l.readCutting σ st fs tail = .error (σ.cutShort .passedOver l.context) := by
  obtain ⟨⟨st', habsorb⟩, id, length, part, hid, hlen, rfl, hrule, hhead⟩ := h
  rw [readCutting, habsorb]
  show Except.error ((l.headError? id length).getD (σ.cutShort (l.passage id) l.context)) = _
  rw [hhead, l.passage_of_none hrule]
  rfl

/-- A list of fields is read, or refused for itself, or cut short; how the data ends tells only what
the last of these is reported as. -/
theorem readCutting_cases (hl : l.OwnFlaws) (st : τ) (fs : List TaggedField) (tail : FieldTail) :
    (∃ r, ∀ σ, l.readCutting σ st fs tail = .ok r) ∨
      (∃ e, e.isTruncated = false ∧ ∀ σ, l.readCutting σ st fs tail = .error e) ∨
      ∃ how, (how = .passedOver → l.EndsInPassed st fs tail) ∧
        ∀ σ, l.readCutting σ st fs tail = .error (σ.cutShort how l.context) := by
  unfold readCutting
  cases habsorb : l.absorbAll st fs with
  | error e => exact .inr (.inl ⟨e, not_truncated_of_absorbAll hl habsorb, fun σ => rfl⟩)
  | ok st' =>
    cases tail with
    | closed rest => exact .inl ⟨(st', rest), fun σ => rfl⟩
    | inHead => exact .inr (.inr ⟨.taken, fun h => (by cases h), fun σ => rfl⟩)
    | inPayload id length part hid hlen =>
      cases hhead : l.headError? id length with
      | none =>
        refine .inr (.inr ⟨l.passage id, fun hpassed => ⟨⟨st', habsorb⟩, ?_⟩, fun σ => ?_⟩)
        · -- what is passed over is not known
          refine ⟨id, length, part, hid, hlen, rfl, ?_, hhead⟩
          cases hrule : l.rule id with
          | none => rfl
          | some rule => cases (l.passage_of_some hrule).symm.trans hpassed
        · simp only [hhead]
          rfl
      | some e =>
        refine .inr (.inl ⟨e, not_truncated_of_headError? hl hhead, fun σ => ?_⟩)
        simp only [hhead]
        rfl

end Layout

namespace KeyEntry

theorem sized_ownFlaws {size : Nat} {put : Draft → Octets size → Draft} {length : UInt32}
    {flaw : Malformation} (h : (sized size put).lengthFlaw length = some flaw) :
    (Error.malformed flaw).isTruncated = false := by
  unfold sized at h
  dsimp only at h
  split at h
  · cases h
  · cases h
    rfl

theorem layout_ownFlaws : layout.OwnFlaws where
  length := by
    intro id rule hrule length flaw hflaw
    unfold layout at hrule
    dsimp only at hrule
    split at hrule
    · cases hrule
      dsimp only at hflaw
      split at hflaw
      · cases hflaw
      · cases hflaw
        rfl
    split at hrule
    · cases hrule
      exact sized_ownFlaws hflaw
    split at hrule
    · cases hrule
      exact sized_ownFlaws hflaw
    · cases hrule
  store := by
    -- what an entry's field holds is never refused
    intro id rule hrule st payload flaw hflaw
    unfold layout sized at hrule
    dsimp only at hrule
    split_ifs at hrule
    all_goals
      cases hrule
      cases hflaw

theorem not_truncated_of_ofFields {fs : List TaggedField} {e : Error} (h : ofFields fs = .error e) :
    e.isTruncated = false := by
  unfold ofFields at h
  cases habsorb : layout.absorbAll {} fs with
  | error e' =>
    rw [habsorb] at h
    cases h
    exact Layout.not_truncated_of_absorbAll layout_ownFlaws habsorb
  | ok draft =>
    rw [habsorb] at h
    replace h : draft.whole = .error e := h
    unfold Draft.whole at h
    split at h
    · cases h
    · cases h
      rfl

end KeyEntry

namespace KeyFile

open Input.Setting (memory)

theorem headerLayout_ownFlaws : headerLayout.OwnFlaws where
  length := by
    intro id rule hrule length flaw hflaw
    unfold headerLayout at hrule
    dsimp only at hrule
    split at hrule
    · cases hrule
      dsimp only at hflaw
      split at hflaw
      · cases hflaw
        rfl
      · cases hflaw
    · cases hrule
  store := by
    intro id rule hrule st payload flaw hflaw
    unfold headerLayout at hrule
    dsimp only at hrule
    split at hrule
    · cases hrule
      dsimp only at hflaw
      cases hname : decodeName payload with
      | ok name =>
        rw [hname] at hflaw
        cases hflaw
      | error flaw' =>
        rw [hname] at hflaw
        cases hflaw
        unfold decodeName at hname
        split at hname
        · cases hname
          rfl
        · split at hname
          · cases hname
          · cases hname
            rfl
    · cases hrule

/-! ## Entries -/

theorem not_truncated_of_addLists {kf : KeyFile} {es : List (List TaggedField)} {e : Error}
    (h : kf.addLists es = .error e) : e.isTruncated = false := by
  induction es generalizing kf with
  | nil => cases h
  | cons fs es ih =>
    cases hentry : KeyEntry.ofFields fs with
    | error e' =>
      rw [addLists_cons, hentry] at h
      cases h
      exact KeyEntry.not_truncated_of_ofFields hentry
    | ok entry =>
      rw [addLists_cons_of_ok hentry] at h
      cases hadd : kf.add entry with
      | error e' =>
        rw [hadd] at h
        cases h
        rw [(add_eq_error.mp hadd).1]
        rfl
      | ok kf₁ =>
        rw [hadd] at h
        exact ih h

/-! ## Key files -/

/-- Data that follows the grammar up to a field that its reader passes over, and ends inside the
payload of that field. -/
inductive EndsInPassed : Bytes → Prop
  | header (fs : List TaggedField) (id length : UInt32) (part : Bytes)
      (hfs : ∀ f ∈ fs, HeaderField f) (id_ne : id ≠ Field.endId) (even : Even id.toNat)
      (length_le : length.toNat ≤ 2 ^ 20) (length_lt : part.length < length.toNat) :
      EndsInPassed
        (magic ++ be32 formatVersion ++ (encodeRow fs ++ (be32 id ++ be32 length ++ part)))
  | entry (front : Bytes) (header : List TaggedField) (es : List (List TaggedField))
      (hfront : Grammatical front header es) (fs : List TaggedField) (id length : UInt32)
      (part : Bytes) (hfs : ∀ f ∈ fs, KeyEntry.EntryField f) (id_ne : id ≠ Field.endId)
      (even : Even id.toNat) (length_le : length.toNat ≤ 2 ^ 20)
      (length_lt : part.length < length.toNat) :
      EndsInPassed (front ++ (encodeRow fs ++ (be32 id ++ be32 length ++ part)))

/-- A header that is refused or cut short decides the reading. -/
theorem load_of_headerCutting {header : List TaggedField} {tail : FieldTail} {e : Error}
    (he : headerLayout.readCutting σ none header tail = .error e)
    (hi : i.Delivers (preamble formatVersion ++ (encodeRow header ++ tail.bytes)) σ) :
    (load i).1 = .error e := by
  refine load_of_headerError (fun k hk => ?_) hi
  have hread := headerLayout.readFields_yields none header tail hk
  rw [he] at hread
  exact hread

/-- Inside a field that is passed over every fault is told as it is. -/
theorem load_of_endsInPassed (h : EndsInPassed b) :
    ∃ context, ∀ (i : Input) (σ : Input.Setting), σ.Quiet → i.Delivers b σ →
      (load i).1 = .error (σ.cutShort .passedOver context) := by
  -- the ids that are known are odd
  have hne : ∀ {id known : UInt32}, Even id.toNat → ¬ Even known.toNat → id ≠ known :=
    fun heven hodd hid => hodd (hid ▸ heven)
  cases h with
  | header fs id length part hfs hid heven hle hlt =>
    have hrule := headerLayout_rule id (hne heven (by decide))
    obtain ⟨name, habsorb, -⟩ := header_absorbAll hfs
    have hpassed : headerLayout.EndsInPassed none fs (.inPayload id length part hid hlt) :=
      ⟨⟨name, habsorb⟩, id, length, part, hid, hlt, rfl, hrule,
        (Layout.headError?_eq_none hrule length).mpr ⟨heven, hle⟩⟩
    exact ⟨headerLayout.context, fun i σ _ hi =>
      load_of_headerCutting (Layout.readCutting_of_endsInPassed hpassed σ) hi⟩
  | entry front header es hfront fs id length part hfs hid heven hle hlt =>
    have hrule := KeyEntry.layout_rule_of_ne (hne heven (by decide)) (hne heven (by decide))
      (hne heven (by decide))
    obtain ⟨-, kf, -, -, hkf⟩ := exists_denotes hfront
    have hpassed : KeyEntry.layout.EndsInPassed {} fs (.inPayload id length part hid hlt) :=
      ⟨⟨_, KeyEntry.entry_absorbAll hfs⟩, id, length, part, hid, hlt, rfl, hrule,
        (Layout.headError?_eq_none hrule length).mpr ⟨heven, hle⟩⟩
    refine ⟨KeyEntry.layout.context, fun i σ hσ hi => ?_⟩
    obtain ⟨i', hi', hload⟩ := load_of_front hσ hfront hkf hi
    have hnil : encodeRow fs ++ (FieldTail.inPayload id length part hid hlt).bytes ≠ [] := by
      intro hnil
      have hlen := congrArg List.length hnil
      simp only [FieldTail.bytes, List.length_append, length_be32, List.length_nil] at hlen
      omega
    rw [hload]
    exact readEntries_of_cut hσ kf hnil (Layout.readCutting_of_endsInPassed hpassed σ) hi'

/-- What stands in front of the entries is refused for itself, or cut short, or read, whatever the
setting is. -/
theorem load_front_cases (b : Bytes) :
    (∃ e, e.isTruncated = false ∧
      ∀ (i : Input) (σ : Input.Setting), i.Delivers b σ → (load i).1 = .error e) ∨
    (∃ how, (how = .passedOver → EndsInPassed b) ∧
      ∀ (i : Input) (σ : Input.Setting), i.Delivers b σ →
        (load i).1 = .error (σ.cutShort how headerContext)) ∨
    ∃ header name rest, b = magic ++ be32 formatVersion ++ encodeList header ++ rest ∧
      headerLayout.absorbAll none header = .ok name ∧
      ∀ (i : Input) (σ : Input.Setting), i.Delivers b σ →
        ∃ i', i'.Delivers rest σ ∧ load i = readEntries (empty name) i' := by
  -- first the preamble, then the header
  by_cases hshort : b.length < 16
  · exact .inr (.inl ⟨.taken, fun h => (by cases h), fun i σ hi => load_of_short hi hshort⟩)
  obtain ⟨p, version, rest, hp, rfl⟩ := exists_preamble (Nat.le_of_not_lt hshort)
  by_cases hmagic : p = magic
  case neg => exact .inl ⟨_, rfl, fun i σ hi => load_of_foreign hp hmagic hi⟩
  by_cases hversion : version = formatVersion
  case neg => exact .inl ⟨_, rfl, fun i σ hi => load_of_version hversion (hmagic ▸ hi)⟩
  rw [hmagic, hversion]
  obtain ⟨header, tail, rfl⟩ := exists_cutting rest
  rcases Layout.readCutting_cases headerLayout_ownFlaws none header tail with
    ⟨⟨name, rest⟩, hok⟩ | ⟨e, hown, he⟩ | ⟨how, hpassed, hcut⟩
  · obtain ⟨hheader, rfl⟩ := headerLayout.readCutting_eq_ok (hok memory)
    have hbytes : magic ++ be32 formatVersion ++
        (encodeRow header ++ (FieldTail.closed rest).bytes) =
        magic ++ be32 formatVersion ++ encodeList header ++ rest := by
      rw [FieldTail.bytes, encodeList]
      simp only [List.append_assoc]
    rw [hbytes]
    refine .inr (.inr ⟨header, name, rest, rfl, hheader, fun i σ hi => ?_⟩)
    rw [List.append_assoc] at hi
    exact load_of_header hheader hi
  · exact .inl ⟨e, hown, fun i σ hi => load_of_headerCutting (he σ) hi⟩
  · refine .inr (.inl ⟨how, fun h => ?_, fun i σ hi => load_of_headerCutting (hcut σ) hi⟩)
    obtain ⟨⟨st, hst⟩, id, length, part, hid, hlt, rfl, hrule, hhead⟩ := hpassed h
    obtain ⟨heven, hle⟩ := (Layout.headError?_eq_none hrule length).mp hhead
    refine .header header id length part (fun f hf => ?_) hid heven hle hlt
    obtain ⟨st₁, st₂, hf'⟩ := headerLayout.absorb_of_mem hst hf
    exact (header_absorb_isOk f st₁).mp ⟨st₂, hf'⟩

/-- Data is refused for itself, or cut short, or a key file behind which its end counts, whatever the
setting is. -/
theorem load_ending_cases (b : Bytes) :
    (∃ e, e.isTruncated = false ∧
      ∀ (i : Input) (σ : Input.Setting), σ.Quiet → i.Delivers b σ → (load i).1 = .error e) ∨
    (∃ how context, (how = .passedOver → EndsInPassed b) ∧
      ∀ (i : Input) (σ : Input.Setting), σ.Quiet → i.Delivers b σ →
        (load i).1 = .error (σ.cutShort how context)) ∨
    ∃ kf, ∀ (i : Input) (σ : Input.Setting), σ.Quiet → i.Delivers b σ →
      (load i).1 = closeWith σ .ended kf := by
  rcases load_front_cases b with
    ⟨e, hown, he⟩ | ⟨how, hpassed, hcut⟩ | ⟨header, name, rest, rfl, hheader, hread⟩
  · exact .inl ⟨e, hown, fun i σ _ hi => he i σ hi⟩
  · exact .inr (.inl ⟨how, _, hpassed, fun i σ _ hi => hcut i σ hi⟩)
  -- behind the header the lists of entries are added, and then their tail counts
  obtain ⟨es, tail, rfl⟩ := exists_entriesCutting rest
  have hresult : ∀ (i : Input) (σ : Input.Setting), σ.Quiet →
      i.Delivers (magic ++ be32 formatVersion ++ encodeList header ++
        (encodeLists es ++ tail.bytes)) σ →
      (load i).1 = (empty name).addLists es >>= closeWith σ tail := by
    intro i σ hσ hi
    obtain ⟨i', hi', hload⟩ := hread i σ hi
    rw [hload]
    exact readEntries_result hσ es tail (empty name) hi'
  cases hadd : (empty name).addLists es with
  | error e =>
    rw [hadd] at hresult
    exact .inl ⟨e, not_truncated_of_addLists hadd, hresult⟩
  | ok kf =>
    rw [hadd] at hresult
    cases tail with
    | ended => exact .inr (.inr ⟨kf, hresult⟩)
    | cut fs tail hopen hne =>
      rcases Layout.readCutting_cases KeyEntry.layout_ownFlaws {} fs tail with
        ⟨⟨d, rest⟩, hok⟩ | ⟨e, hown, he⟩ | ⟨how, hpassed, hcut⟩
      · -- a list that is not closed is not read
        exact absurd (KeyEntry.layout.readCutting_eq_ok (hok memory)).2 (hopen rest)
      · refine .inl ⟨e, hown, fun i σ hσ hi => (hresult i σ hσ hi).trans ?_⟩
        show (KeyEntry.layout.readCutting σ {} fs tail >>= fun _ => .ok kf) = _
        rw [he]
        rfl
      · refine .inr (.inl ⟨how, KeyEntry.layout.context, fun h => ?_, fun i σ hσ hi =>
          (hresult i σ hσ hi).trans ?_⟩)
        · obtain ⟨⟨st, hst⟩, id, length, part, hid, hlt, rfl, hrule, hhead⟩ := hpassed h
          obtain ⟨heven, hle⟩ := (Layout.headError?_eq_none hrule length).mp hhead
          have hfront := (grammatical_of_ok hheader hadd).1
          rw [← List.append_assoc]
          refine .entry _ header es hfront fs id length part (fun f hf => ?_) hid heven hle hlt
          obtain ⟨st₁, st₂, hf'⟩ := KeyEntry.layout.absorb_of_mem hst hf
          exact KeyEntry.entry_absorb_isOk f st₁ ⟨st₂, hf'⟩
        · show (KeyEntry.layout.readCutting σ {} fs tail >>= fun _ => .ok kf) = _
          rw [hcut]
          rfl

/-- **Reading a key file from a source.** It comes to what its bytes come to, but for a fault. -/
theorem load_eq_report {how : Passage} (hhow : how = .passedOver ↔ EndsInPassed b) (hσ : σ.Quiet)
    (hi : i.Delivers b σ) : (load i).1 = σ.report how (decode b) := by
  have hj := Input.delivers_ofBytes b
  have hmemory := Input.Setting.quiet_memory
  unfold decode
  by_cases hpassed : EndsInPassed b
  · obtain ⟨context, hcut⟩ := load_of_endsInPassed hpassed
    rw [hcut i σ hσ hi, hcut _ memory hmemory hj, hhow.mpr hpassed]
    exact (Input.Setting.report_cutShort _ _).symm
  rcases load_ending_cases b with ⟨e, hown, he⟩ | ⟨how', context, hhow', hcut⟩ | ⟨kf, hread⟩
  · rw [he i σ hσ hi, he _ memory hmemory hj]
    exact (Input.Setting.report_error hown how).symm
  · -- where no field is passed over, the missing bytes were to be taken
    have hne : ∀ {way : Passage}, way ≠ .passedOver → way = .taken := fun {way} h => by
      cases way with
      | taken => rfl
      | passedOver => exact absurd rfl h
    rw [hcut i σ hσ hi, hcut _ memory hmemory hj, hne (fun h => hpassed (hhow.mp h)),
      hne (fun h => hpassed (hhow' h))]
    exact (Input.Setting.report_cutShort _ _).symm
  · rw [hread i σ hσ hi, hread _ memory hmemory hj]
    unfold closeWith Input.Setting.report
    cases σ.ending <;> rfl

/-- Data that ends without a fault comes to what its bytes come to. -/
theorem load_eq_decode (hnone : σ.ending = none) (hσ : σ.Quiet) (hi : i.Delivers b σ) :
    (load i).1 = decode b := by
  obtain ⟨how, hhow⟩ : ∃ how : Passage, how = .passedOver ↔ EndsInPassed b := by
    by_cases h : EndsInPassed b
    · exact ⟨.passedOver, iff_of_true rfl h⟩
    · exact ⟨.taken, iff_of_false (by decide) h⟩
  rw [load_eq_report hhow hσ hi, Input.Setting.report, hnone]

end KeyFile

/-! ## Unframed keys -/

namespace KeyEntry

theorem readUnframed_of_lt (version : UInt32) (hi : i.Delivers b σ) (hb : b.length < 96) :
    ((readUnframed version).on i).1 = .error (σ.cutShort .taken "legacy key") := by
  by_cases hshort : b.length < 32
  · obtain ⟨i', ht⟩ := take_of_lt "legacy key" hi hshort
    rw [readUnframed, on_bind, ht]
  · -- the first key is there, the second is not
    have hcipher : (b.take 32).length = 32 := by rw [List.length_take]; omega
    have hdigest : (b.drop 32).length < 64 := by rw [List.length_drop]; omega
    rw [← List.take_append_drop 32 b] at hi
    obtain ⟨i₁, ht, hi₁⟩ := take_of_append "legacy key" hi hcipher
    obtain ⟨i', ht'⟩ := take_of_lt "legacy key" hi₁ hdigest
    rw [readUnframed, on_bind, ht]
    dsimp only
    rw [on_bind, ht']

/-- An entry holds its material as two keys. -/
theorem ofMaterial_eq (version : UInt32) (material : Octets 96) :
    ofMaterial version material =
      ⟨version, .ofPrefix 32 (material.toList.take 32), .ofPrefix 64 (material.toList.drop 32)⟩ := by
  have hcipher : (material.toList.take 32).length = 32 := by simp [material.length_toList]
  have hdigest : (material.toList.drop 32).length = 64 := by simp [material.length_toList]
  rw [ofMaterial, mk.injEq]
  exact ⟨rfl, Octets.ext (Octets.toList_ofPrefix hcipher).symm,
    Octets.ext (Octets.toList_ofPrefix hdigest).symm⟩

/-- Behind the two keys of an unframed entry it is the look for the end that decides. -/
theorem readUnframed_of_keys (version : UInt32) {c d : Bytes} (hc : c.length = 32)
    (hd : d.length = 64) (hi : i.Delivers (c ++ (d ++ rest)) σ) :
    ∃ i', i'.Delivers rest σ ∧ ((readUnframed version).on i).1 =
      (atEnd.on i').1 >>= fun ended =>
        if ended then .ok ⟨version, .ofPrefix 32 c, .ofPrefix 64 d⟩
        else .error (.malformed (.trailingData materialLength)) := by
  obtain ⟨i₁, ht, hi₁⟩ := take_of_append "legacy key" hi hc
  obtain ⟨i', ht', hi'⟩ := take_of_append "legacy key" hi₁ hd
  refine ⟨i', hi', ?_⟩
  rw [readUnframed, on_bind, ht]
  dsimp only
  rw [on_bind, ht']
  dsimp only
  rw [on_bind]
  rcases atEnd.on i' with ⟨_ | ended, i₂⟩
  · rfl
  · cases ended <;> rfl

end KeyEntry

namespace KeyFile

open Input.Setting (memory)

theorem fst_loadLegacy (i : Input) :
    (loadLegacy i).1 = ((KeyEntry.readUnframed 0).on i).1 >>= (empty none).add := by
  unfold loadLegacy
  rcases (KeyEntry.readUnframed 0).on i with ⟨_ | entry, i'⟩ <;> rfl

/-- Unframed bytes are too few, or they begin with the material of a key and the look for the end
behind it decides, whatever the setting is. -/
theorem loadLegacy_front_cases (b : Bytes) :
    (b.length < 96 ∧ ∀ (i : Input) (σ : Input.Setting), i.Delivers b σ →
      (loadLegacy i).1 = .error (σ.cutShort .taken "legacy key")) ∨
    ∃ (material : Octets 96) (rest : Bytes) (kf : KeyFile), b = material.toList ++ rest ∧
      (empty none).add (.ofMaterial 0 material) = .ok kf ∧
      ∀ (i : Input) (σ : Input.Setting), i.Delivers b σ →
        ∃ i', i'.Delivers rest σ ∧ (loadLegacy i).1 =
          (atEnd.on i').1 >>= fun ended =>
            if ended then .ok kf else .error (.malformed (.trailingData KeyEntry.materialLength)) := by
  by_cases hshort : b.length < 96
  · refine .inl ⟨hshort, fun i σ hi => ?_⟩
    rw [fst_loadLegacy, KeyEntry.readUnframed_of_lt 0 hi hshort]
    rfl
  -- both keys are there, and perhaps more
  obtain ⟨material, rest, hb⟩ : ∃ (material : Octets 96) (rest : Bytes),
      b = material.toList ++ rest :=
    ⟨⟨b.take 96, by rw [List.length_take]; omega⟩, b.drop 96, (List.take_append_drop 96 b).symm⟩
  have hentry := KeyEntry.ofMaterial_eq 0 material
  -- an entry can be added to a key file that has none
  obtain ⟨kf, hadd⟩ : ∃ kf, (empty none).add (.ofMaterial 0 material) = .ok kf :=
    exists_add fun x hx => absurd hx List.not_mem_nil
  refine .inr ⟨material, rest, kf, hb, hadd, fun i σ hi => ?_⟩
  have hkeys : material.toList = material.toList.take 32 ++ material.toList.drop 32 :=
    (List.take_append_drop 32 _).symm
  rw [hb, hkeys, List.append_assoc] at hi
  obtain ⟨i', hi', hread⟩ := KeyEntry.readUnframed_of_keys 0
    (by simp [material.length_toList]) (by simp [material.length_toList]) hi
  refine ⟨i', hi', ?_⟩
  rw [fst_loadLegacy, hread, ← hentry]
  rcases (atEnd.on i').1 with _ | ended
  · rfl
  · cases ended with
    | true => exact hadd
    | false => rfl

/-- **Reading an unframed key from a source.** It comes to what its bytes come to, but for a fault. -/
theorem loadLegacy_eq_report (hσ : σ.Quiet) (hi : i.Delivers b σ) :
    (loadLegacy i).1 = σ.report .taken (loadLegacy (.ofBytes b)).1 := by
  have hj := Input.delivers_ofBytes b
  rcases loadLegacy_front_cases b with ⟨-, hcut⟩ | ⟨-, rest, kf, -, -, hread⟩
  · rw [hcut i σ hi, hcut _ memory hj]
    exact (Input.Setting.report_cutShort _ _).symm
  obtain ⟨i', hi', hload⟩ := hread i σ hi
  obtain ⟨j', hj', hload'⟩ := hread _ memory hj
  rw [hload, hload']
  by_cases hrest : rest = []
  · subst hrest
    have hend := atEnd_of_nil hσ hi'
    obtain ⟨j₁, hok, -⟩ := (atEnd_of_nil Input.Setting.quiet_memory hj').eq_ok
    rw [hok]
    unfold Input.Setting.report
    cases hfault : σ.ending with
    | none =>
      rw [hfault] at hend
      obtain ⟨i₁, hok', -⟩ := hend.eq_ok
      rw [hok']
    | some fault =>
      rw [hfault] at hend
      obtain ⟨i₁, hfail⟩ := eq_error_of_fst hend
      rw [hfail]
      rfl
  · obtain ⟨i₁, hmore, -⟩ := atEnd_of_ne_nil hσ hi' hrest
    obtain ⟨j₁, hmore', -⟩ := atEnd_of_ne_nil Input.Setting.quiet_memory hj' hrest
    rw [hmore, hmore']
    exact (Input.Setting.report_error rfl _).symm

/-! ## Sources -/

theorem delivers_ofCut (b : Bytes) (cut : Option (Cut b)) (schedule : Schedule) (capacity : Nat) :
    (Input.ofSource (.ofCut b cut schedule) capacity).Delivers (delivered b cut)
      ⟨cut.map Cut.fault, schedule, capacity⟩ := ⟨rfl, rfl⟩

/-- **No key from a part of the data.** A source that does not fail comes to what its bytes come to,
however it cuts them. From one that fails no key is loaded: what is told is what the bytes in front of
the fault are refused for, or else the fault. That the data is too short is told only if the fault says
so itself, and then not inside a field that is passed over. -/
theorem load_ofCut (b : Bytes) (schedule : Schedule) (capacity : Nat) (hcapacity : 0 < capacity)
    (hquiet : ∀ n, (schedule n).interruptions = 0) :
    let input : Option (Cut b) → Input := fun cut => .ofSource (.ofCut b cut schedule) capacity
    let decodeLegacy : Bytes → Except Error KeyFile := fun b => (loadLegacy (.ofBytes b)).1
    ((load (input none)).1 = decode b ∧ (loadLegacy (input none)).1 = decodeLegacy b) ∧
    ∀ c : Cut b,
      (¬ EndsInPassed (b.take c.offset) →
        (load (input c)).1 = brokenOff c.fault .taken (decode (b.take c.offset))) ∧
      (EndsInPassed (b.take c.offset) →
        (load (input c)).1 = brokenOff c.fault .passedOver (decode (b.take c.offset))) ∧
      (loadLegacy (input c)).1 = brokenOff c.fault .taken (decodeLegacy (b.take c.offset)) ∧
      (∃ e, (load (input c)).1 = .error e ∧
        (e.isTruncated = true → c.fault.kind = .unexpectedEnd)) ∧
      ∃ e, (loadLegacy (input c)).1 = .error e ∧
        (e.isTruncated = true → c.fault.kind = .unexpectedEnd) := by
  intro input decodeLegacy
  have hσ : ∀ ending, Input.Setting.Quiet ⟨ending, schedule, capacity⟩ := fun _ => ⟨hcapacity, hquiet⟩
  have hi := fun cut => delivers_ofCut b cut schedule capacity
  have hlegacy := fun cut => loadLegacy_eq_report (hσ _) (hi cut)
  refine ⟨⟨load_eq_decode rfl (hσ _) (hi none), hlegacy none⟩, fun c => ?_⟩
  have htaken : ¬ EndsInPassed (b.take c.offset) →
      (load (input c)).1 = brokenOff c.fault .taken (decode (b.take c.offset)) := fun h =>
    load_eq_report (iff_of_false (by decide) h) (hσ _) (hi (some c))
  have hpassed : EndsInPassed (b.take c.offset) →
      (load (input c)).1 = brokenOff c.fault .passedOver (decode (b.take c.offset)) := fun h =>
    load_eq_report (iff_of_true rfl h) (hσ _) (hi (some c))
  refine ⟨htaken, hpassed, hlegacy (some c), ?_, ?_⟩
  · by_cases h : EndsInPassed (b.take c.offset)
    · exact hpassed h ▸ exists_brokenOff c.fault .passedOver _
    · exact htaken h ▸ exists_brokenOff c.fault .taken _
  · exact hlegacy (some c) ▸ exists_brokenOff c.fault .taken _

/-- Data that breaks off behind the header, where what was delivered is a key file without entries. -/
theorem load_ofCut_behindHeader :
    let kf : KeyFile := ⟨none, [⟨3, .replicate 32 7, .replicate 64 9⟩], by decide⟩
    let schedule : Schedule := fun _ => { atMost := some 3 }
    (∀ n, (schedule n).interruptions = 0) ∧ ∃ c : Cut kf.encode,
      decode (kf.encode.take c.offset) = .ok (empty none) ∧
        (load (.ofSource (.ofCut kf.encode (some c) schedule) 2)).1 = .error (.io c.fault) := by
  intro kf schedule
  have hquiet : ∀ n, (schedule n).interruptions = 0 := fun n => rfl
  have hsplit : kf.encode = (empty none).encode ++ kf.entries.flatMap KeyEntry.encode := rfl
  have hlen : (empty none).encode.length = 20 := by decide
  have htake : kf.encode.take 20 = (empty none).encode := by rw [hsplit, ← hlen, List.take_left]
  have hfront : decode (kf.encode.take 20) = .ok (empty none) := htake ▸ decode_encode (empty none)
  have hle : 20 ≤ kf.encode.length := by
    rw [hsplit, List.length_append, hlen]
    exact Nat.le_add_right _ _
  let c : Cut kf.encode := ⟨20, hle, { toFault := .permissionDenied }⟩
  obtain ⟨-, hall⟩ := load_ofCut kf.encode schedule 2 (by decide) hquiet
  obtain ⟨htaken, hpassed, -⟩ := hall c
  refine ⟨hquiet, c, hfront, ?_⟩
  by_cases h : EndsInPassed (kf.encode.take c.offset)
  · rw [hpassed h, hfront]
    rfl
  · rw [htaken h, hfront]
    rfl

/-- A source can fail by saying that its data ends, and then the data is called too short. -/
theorem load_ofCut_unexpectedEnd :
    let c : Cut [] := ⟨0, by decide, { kind := .unexpectedEnd, text := "unexpected end of file" }⟩
    let result := (load (.ofSource (.ofCut [] (some c) .prompt) 1)).1
    result = .error (.malformed (.truncated headerContext)) ∧ result ≠ .error (.io c.fault) := by
  intro c result
  have hresult : result = .error (.malformed (.truncated headerContext)) :=
    load_of_short (delivers_ofCut [] (some c) .prompt 1) (by decide)
  rw [hresult]
  exact ⟨rfl, fun h => (by cases h)⟩

end KeyFile

end RepoSeal
