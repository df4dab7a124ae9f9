import RepoSeal.Proofs.KeyCuts

/-!
# RepoSeal — lists of fields end by themselves

Lists of fields stand one behind the other with nothing that tells their lengths, so each reader has
to stop at the exact byte. A reader goes from head to head, and gets behind each payload in one of two
ways (`Passage`). Whatever its choices, it sees the heads that were written and leaves what stands
behind the end mark (`Field.walk_encodeList`), for what a payload holds is never looked at as a head.

For entries both directions follow. The bytes of an entry that was read are one closed list
(`KeyEntry.eq_encodeList_of_read`), so more bytes behind them change nothing (`KeyEntry.read_append`)
and fewer are not enough (`KeyEntry.read_take`).
-/

namespace RepoSeal

open Reader

variable {i : Input} {σ : Input.Setting} {rest : Bytes}

/-! ## Walking along a list -/

namespace Field

/-- What a reader sees of a field: its head, and the payload if that was taken. -/
structure Sight where
  id : UInt32
  length : UInt32
  payload : Option Bytes
deriving DecidableEq

/-- Gets behind the payload of a field whose head has been read. -/
def pass (context : String) (how : Passage) (id length : UInt32) : Reader (Option Bytes) :=
  match how with
  | .taken => some <$> Reader.take context length.toNat
  | .passedOver => do
    passOver context id length
    return none

theorem pass_ok {context : String} {how : Passage} {id length : UInt32} {i i' : Input}
    {payload : Option Bytes} (h : (pass context how id length).on i = (.ok payload, i')) :
    i'.remaining.length ≤ i.remaining.length := by
  cases how with
  | taken =>
    rw [pass, on_map] at h
    generalize ht : (Reader.take context length.toNat).on i = r at h
    obtain ⟨o, j⟩ := r
    cases o with
    | error e => cases h
    | ok b =>
      cases h
      show j.remaining.length ≤ i.remaining.length
      rw [(Reader.take_ok ht).1, List.length_append]
      omega
  | passedOver =>
    obtain ⟨u, j, hpass, h⟩ := Reader.on_bind_ok h
    cases h
    exact passOver_ok hpass

/-- Reads a list of fields from head to head, up to and including its end mark. The payload of the
`n`th field is left behind in the way `how n`. -/
def walk (context : String) (how : Nat → Passage) (i : Input) : Except Error (List Sight) × Input :=
  match _h : (next context).on i with
  | (.error e, i') => (.error e, i')
  | (.ok none, i') => (.ok [], i')
  | (.ok (some (id, length)), i₁) =>
    match _h' : (pass context (how 0) id length).on i₁ with
    | (.error e, i') => (.error e, i')
    | (.ok payload, i₂) =>
      match walk context (fun n => how (n + 1)) i₂ with
      | (.error e, i') => (.error e, i')
      | (.ok seen, i') => (.ok (⟨id, length, payload⟩ :: seen), i')
termination_by i.remaining.length
decreasing_by
  have := next_ok _h
  have := pass_ok _h'
  omega

/-- What is to be seen of a field that is left behind in the given way. -/
def sightOf (how : Passage) (f : TaggedField) : Sight :=
  ⟨f.id, f.length, match how with | .taken => some f.payload | .passedOver => none⟩

variable (context : String) {how : Nat → Passage} {fs : List TaggedField}

/-- A field that may be passed over can be left behind in either way, any other by taking its
payload. -/
theorem pass_of_payload {f : TaggedField} {way : Passage} (hf : way = .passedOver → f.Skippable)
    (hi : i.Delivers (f.payload ++ rest) σ) :
    ∃ i', (pass context way f.id f.length).on i = (.ok (sightOf way f).payload, i') ∧
      i'.Delivers rest σ := by
  cases way with
  | taken =>
    obtain ⟨i', ht, hi'⟩ := take_of_append context hi f.toNat_length.symm
    exact ⟨i', by rw [pass, on_map, ht]; rfl, hi'⟩
  | passedOver =>
    obtain ⟨heven, hshort⟩ := hf rfl
    have hcritical : ¬ isCritical f.id = true := by
      rw [isCritical_iff]
      exact not_not.mpr heven
    have hlong : ¬ maxPassedLength < f.length := by
      rw [UInt32.lt_iff_toNat_lt, f.toNat_length, Nat.not_lt]
      exact hshort
    have hnoted : Input.Delivers { i with passed := ⟨context, f.id, f.length⟩ :: i.passed }
        (f.payload ++ rest) σ := ⟨hi.remaining_eq, hi.setting_eq⟩
    obtain ⟨i', hs, hi'⟩ := skip_of_append context hnoted f.toNat_length.symm
    refine ⟨i', ?_, hi'⟩
    show (passOver context f.id f.length >>= fun _ => pure none).on i = _
    rw [passOver, if_neg hcritical, if_neg hlong]
    simp only [on_bind, on_note, hs, on_pure]
    rfl

/-- One step of a walk: the head of a field, its payload, and then the rest of the list. -/
theorem walk_of_head {f : TaggedField} {i₁ i₂ : Input}
    (hnext : (next context).on i = (.ok (some (f.id, f.length)), i₁))
    (hpass : (pass context (how 0) f.id f.length).on i₁ = (.ok (sightOf (how 0) f).payload, i₂)) :
    walk context how i =
      ((walk context (fun n => how (n + 1)) i₂).1.map (sightOf (how 0) f :: ·),
        (walk context (fun n => how (n + 1)) i₂).2) := by
  rw [walk]
  split
  · rename_i h
    cases hnext.symm.trans h
  · rename_i h
    cases hnext.symm.trans h
  · rename_i id length j h
    cases hnext.symm.trans h
    split
    · rename_i h'
      cases hpass.symm.trans h'
    · rename_i payload j' h'
      cases hpass.symm.trans h'
      rcases walk context (fun n => how (n + 1)) i₂ with ⟨_ | seen, i'⟩
      · rfl
      · rfl

theorem walk_of_endMark (hi : i.Delivers (endMark ++ rest) σ) :
    ∃ i', walk context how i = (.ok [], i') ∧ i'.Delivers rest σ := by
  obtain ⟨i', hnext, hi'⟩ := next_of_endMark context hi
  refine ⟨i', ?_, hi'⟩
  rw [walk]
  split
  · rename_i h
    cases hnext.symm.trans h
  · rename_i h
    cases hnext.symm.trans h
    rfl
  · rename_i h
    cases hnext.symm.trans h

/-- A walk along a list sees its fields in order and stops behind its end mark. -/
theorem walk_encodeList
    (hhow : ∀ n f, fs[n]? = some f → how n = .passedOver → f.Skippable)
    (hi : i.Delivers (encodeList fs ++ rest) σ) :
    ∃ i', walk context how i = (.ok (fs.mapIdx fun n => sightOf (how n)), i') ∧
      i'.Delivers rest σ := by
  -- on the fields that are left; the choices are counted from the first of them
  induction fs generalizing i how with
  | nil => exact walk_of_endMark context hi
  | cons f fs ih =>
    have hbytes : encodeList (f :: fs) ++ rest =
        be32 f.id ++ be32 f.length ++ (f.payload ++ (encodeList fs ++ rest)) := by
      simp only [encodeList, encodeRow_cons, f.encode_eq, List.append_assoc]
    rw [hbytes] at hi
    obtain ⟨i₁, hnext, hi₁⟩ := next_of_head context f.id_ne hi
    obtain ⟨i₂, hpass, hi₂⟩ := pass_of_payload context (hhow 0 f rfl) hi₁
    obtain ⟨i', hwalk, hi'⟩ := ih (fun n g hg => hhow (n + 1) g hg) hi₂
    refine ⟨i', ?_, hi'⟩
    rw [walk_of_head context hnext hpass, hwalk, List.mapIdx_cons]
    rfl

end Field

/-! ## Entries -/

namespace KeyEntry

variable {b : Bytes} {e : KeyEntry}

/-- Bytes that are read as an entry, all of them, are a closed list of the entry's fields. -/
theorem eq_encodeList_of_read {i' : Input} (hi : i.Delivers b σ) (h : read i = (.ok e, i'))
    (hend : i'.remaining = []) :
    ∃ fs, b = encodeList fs ∧ ofFields fs = .ok e := by
  obtain ⟨fs, tail, rfl⟩ := exists_cutting b
  have hread := read_yields fs tail hi
  rw [h] at hread
  cases hcut : layout.readCutting σ {} fs tail with
  | error e' =>
    rw [hcut] at hread
    cases hread
  | ok p =>
    obtain ⟨draft, rest⟩ := p
    obtain ⟨habsorb, rfl⟩ := layout.readCutting_eq_ok hcut
    rw [hcut] at hread
    change Yields (.ok e, i') σ (draft.whole.map (·, rest)) at hread
    cases hwhole : draft.whole with
    | error e' =>
      rw [hwhole] at hread
      cases hread
    | ok e' =>
      rw [hwhole] at hread
      obtain ⟨hsame, hrest⟩ := hread
      cases hsame
      have hnil : rest = [] := hrest.remaining_eq.symm.trans hend
      refine ⟨fs, ?_, ?_⟩
      · rw [hnil, encodeList, FieldTail.bytes, List.append_nil]
      · rw [ofFields, habsorb]
        exact hwhole

/-- More bytes behind an entry are left unread. -/
theorem read_append {fs : List TaggedField} (h : ofFields fs = .ok e)
    (hi : i.Delivers (encodeList fs ++ rest) σ) :
    ∃ i', read i = (.ok e, i') ∧ i'.Delivers rest σ := by
  have hread := read_of_list fs hi
  rw [h] at hread
  exact hread.eq_ok

/-- A front part of an entry is refused for its end. -/
theorem read_take {fs : List TaggedField} (h : ofFields fs = .ok e) {n : Nat}
    (hn : n < (encodeList fs).length) (hi : i.Delivers ((encodeList fs).take n) σ) :
    ∃ how : Passage, (read i).1 = .error (σ.cutShort how context) := by
  have habsorb : layout.absorbAll {} fs = .ok (draftOf fs) :=
    entry_absorbAll (ofFields_eq_ok.mp h).1.field
  obtain ⟨front, tail, how, hbytes, -, hcut⟩ := Layout.exists_cut_of_lt habsorb hn
  rw [hbytes] at hi
  have hread := read_yields front tail hi
  rw [hcut] at hread
  exact ⟨how, hread⟩

end KeyEntry

/-- **Lists of fields and entries end by themselves.** Behind a list that was written, any bytes may
stand: a reader that goes from head to head sees the ids and lengths that were written, in order, then
the end, and leaves exactly those bytes, whichever payloads it takes and whichever fields with even ids
and at most `2 ^ 20` bytes it passes over. Bytes that are read as an entry, all of them, whatever their
fields, are read as the same entry in front of any other bytes, which are left; and no strict front
part of them is an entry. -/
theorem Field.lists_selfDelimiting :
    (∀ (context : String) (fs : List TaggedField) (rest : Bytes) (how : Nat → Passage)
      (σ : Input.Setting) (i : Input),
      (∀ n f, fs[n]? = some f → how n = .passedOver →
        Even f.id.toNat ∧ f.payload.length ≤ 2 ^ 20) →
      i.Delivers (fs.flatMap (fun f => encode f.id f.payload) ++ endMark ++ rest) σ →
      ∃ i', walk context how i = (.ok (fs.mapIdx fun n f =>
          { id := f.id
            length := .ofNat f.payload.length
            payload := if how n = .taken then some f.payload else none }), i') ∧
        i'.Delivers rest σ) ∧
    ∀ (b : Bytes) (e : KeyEntry) (σ : Input.Setting) (i i' : Input),
      i.Delivers b σ → KeyEntry.read i = (.ok e, i') → i'.remaining = [] →
      (∀ (rest : Bytes) (τ : Input.Setting) (j : Input), j.Delivers (b ++ rest) τ →
        ∃ j', KeyEntry.read j = (.ok e, j') ∧ j'.Delivers rest τ) ∧
      ∀ n < b.length, ∀ (τ : Input.Setting) (j : Input), j.Delivers (b.take n) τ →
        ∃ how : Passage, (KeyEntry.read j).1 = .error (τ.cutShort how KeyEntry.context) := by
  refine ⟨fun context fs rest how σ i hhow hi => ?_, fun b e σ i i' hi hread hend => ?_⟩
  · have hsights : (fs.mapIdx fun n => sightOf (how n)) = fs.mapIdx fun n f =>
        { id := f.id
          length := .ofNat f.payload.length
          payload := if how n = .taken then some f.payload else none } := by
      congr 1
      funext n f
      unfold sightOf
      cases how n <;> rfl
    rw [← hsights]
    exact walk_encodeList context hhow hi
  · obtain ⟨fs, rfl, hfields⟩ := KeyEntry.eq_encodeList_of_read hi hread hend
    exact ⟨fun rest τ j hj => KeyEntry.read_append hfields hj,
      fun n hn τ j hj => KeyEntry.read_take hfields hn hj⟩

/-- An entry behind a field that holds the whole entry over again and a cipher key that does not count,
with its own fields in the wrong order. -/
theorem Field.lists_selfDelimiting_nested :
    let entry : KeyEntry := ⟨3, .replicate 32 7, .replicate 64 9⟩
    let decoy : TaggedField := ⟨6, entry.encode, by decide, by rw [entry.length_encode]; decide⟩
    let old : TaggedField := ⟨KeyEntry.cipherKeyField, List.replicate 32 1, by decide, by decide⟩
    let fs := decoy :: old :: entry.fields.reverse
    let b := encodeList fs
    let how : Nat → Passage := fun n => if n = 0 then .passedOver else .taken
    (∃ i, KeyEntry.read (.ofBytes b) = (.ok entry, i) ∧ i.remaining = []) ∧
      (∃ i, walk "fields" how (.ofBytes (b ++ [0, 1])) =
          (.ok (⟨6, .ofNat entry.encode.length, none⟩ :: (old :: entry.fields.reverse).map fun f =>
            ⟨f.id, f.length, some f.payload⟩), i) ∧ i.remaining = [0, 1]) ∧
      (∃ i, KeyEntry.read (.ofBytes (b ++ b)) = (.ok entry, i) ∧ i.remaining = b) ∧
      (KeyEntry.read (.ofBytes (b.take 140))).1 = .error (.malformed (.truncated KeyEntry.context)) := by
  intro entry decoy old fs b how
  have hskip : decoy.Skippable := by
    refine ⟨by decide, ?_⟩
    show entry.encode.length ≤ 2 ^ 20
    rw [entry.length_encode]
    decide
  have hentry : KeyEntry.ofFields fs = .ok entry := by
    have hown := entry.entryFields_fields
    refine KeyEntry.ofFields_eq_ok.mpr ⟨⟨?_, ?_, ?_, ?_⟩, rfl, rfl, rfl⟩
    · intro f hf
      simp only [fs, List.mem_cons, List.mem_reverse] at hf
      rcases hf with rfl | rfl | hf
      · exact .inr (.inr (.inr hskip))
      · exact .inr (.inl ⟨rfl, rfl⟩)
      · exact hown.field f hf
    all_goals simp [fs, KeyEntry.fields]
  obtain ⟨hwalk, hends⟩ := lists_selfDelimiting
  have hi : (Input.ofBytes b).Delivers (encodeList fs ++ []) .memory := by
    rw [List.append_nil]
    exact Input.delivers_ofBytes b
  obtain ⟨i, hread, hrest⟩ := KeyEntry.read_append hentry hi
  obtain ⟨hmore, hless⟩ := hends b entry _ _ i (Input.delivers_ofBytes b) hread hrest.remaining_eq
  refine ⟨⟨i, hread, hrest.remaining_eq⟩, ?_, ?_, ?_⟩
  · have hhow : ∀ n f, fs[n]? = some f → how n = .passedOver →
        Even f.id.toNat ∧ f.payload.length ≤ 2 ^ 20 := by
      intro n f hf hn
      have hzero : n = 0 := by
        by_contra hne
        simp [how, hne] at hn
      rw [hzero] at hf
      cases hf
      exact hskip
    obtain ⟨j, hj, hleft⟩ :=
      hwalk "fields" fs [0, 1] how _ _ hhow (Input.delivers_ofBytes (b ++ [0, 1]))
    exact ⟨j, hj, hleft.remaining_eq⟩
  · obtain ⟨j, hj, hleft⟩ := hmore b _ _ (Input.delivers_ofBytes (b ++ b))
    exact ⟨j, hj, hleft.remaining_eq⟩
  · have hlong : 140 < b.length := by
      have hold : old.payload.length = 32 := rfl
      simp only [b, fs, encodeList, encodeRow_cons, List.length_append, TaggedField.length_encode, decoy,
        entry.length_encode, hold]
      omega
    obtain ⟨how, hshort⟩ := hless 140 hlong _ _ (Input.delivers_ofBytes _)
    rw [hshort, Input.Setting.cutShort_memory]

end RepoSeal
