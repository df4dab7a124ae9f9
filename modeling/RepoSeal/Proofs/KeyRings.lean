import RepoSeal.Key.Ring
import RepoSeal.Proofs.KeyEntries
import RepoSeal.Proofs.KeyRuns
import Mathlib.Order.Bounds.Defs

/-!
# RepoSeal — key rings hold key files

A ring could have an entry in the slot of another version, or a name that is none. No run of operations
leads to such a ring: the ring holds a key file in the sense of `Holds` all along. Each operation makes
of it what the operation on key files makes of that file (`sameOutcome_perform`), and one that fails has
done nothing to the ring yet (`atomic_perform`). So a run of operations on a ring is followed by the
same run on a key file (`Holds.after`), and what is known of key files holds of rings
(`after_invariant`).
-/

namespace RepoSeal.KeyRing

open KeyFile (Edit)

variable {r r' : KeyRing} {kf : KeyFile}

/-! ## Work that fails -/

namespace Op

variable {α β : Type}

theorem on_ofExcept (x : Except Error α) (r : KeyRing) : (ofExcept x).on r = (x, r) := rfl

theorem on_get (r : KeyRing) : (get : Op KeyRing).on r = (.ok r, r) := rfl

theorem on_bind (p : Op α) (f : α → Op β) (r : KeyRing) :
    (p >>= f).on r =
      match p.on r with
      | (.ok a, r') => (f a).on r'
      | (.error e, r') => (.error e, r') := by
  simp only [on, ExceptT.run_bind, StateT.run_bind]
  rcases (ExceptT.run p).run r with ⟨_ | _, _⟩ <;> rfl

/-- Work that fails has done nothing to the ring. -/
def Atomic (op : Op α) : Prop :=
  ∀ {r r' : KeyRing} {e : Error}, op.on r = (.error e, r') → r' = r

theorem make_eq_ok {op : Op Unit} : op.make r = .ok r' ↔ op.on r = (.ok (), r') := by
  unfold make
  rcases op.on r with ⟨_ | _, _⟩ <;> simp

theorem Atomic.on_of_make {op : Op Unit} (hop : op.Atomic) {e : Error} (h : op.make r = .error e) :
    op.on r = (.error e, r) := by
  unfold make at h
  generalize hr : op.on r = result at h
  obtain ⟨_ | _, r'⟩ := result
  · cases h
    rw [hop hr]
  · cases h

end Op

theorem on_setName (name : Option String) (r : KeyRing) :
    (setName name).on r =
      match name.elim (.ok ()) checkName with
      | .ok _ => (.ok (), { r with name })
      | .error e => (.error e, r) := by
  cases name with
  | none => rfl
  | some text =>
    show (Op.ofExcept (checkName text) >>= fun _ => modify fun r => { r with name := some text }).on r
      = _
    rw [Op.on_bind, Op.on_ofExcept]
    dsimp only [Option.elim]
    cases checkName text <;> rfl

theorem on_add (entry : KeyEntry) (r : KeyRing) :
    (add entry).on r =
      if (r.get? entry.version).isSome then (.error (.malformed (.duplicateVersion entry.version)), r)
      else (.ok (), { r with slots := r.slots.insert entry.version entry }) := by
  unfold add
  rw [Op.on_bind, Op.on_get]
  dsimp only
  show _ = if r.slots.contains entry.version = true then _ else _
  split
  · rfl
  · rfl

theorem add_fails_iff {entry : KeyEntry} :
    (∃ e, ((add entry).on r).1 = .error e) ↔ ∃ e, r.get? entry.version = some e := by
  rw [on_add, ← Option.isSome_iff_exists]
  split
  · rename_i hsome
    exact iff_of_true ⟨_, rfl⟩ hsome
  · rename_i hnone
    exact iff_of_false (fun ⟨e, he⟩ => by cases he) hnone

theorem atomic_setName (name : Option String) : (setName name).Atomic := by
  intro r r' e h
  rw [on_setName] at h
  split at h <;> cases h
  rfl

theorem atomic_add (entry : KeyEntry) : (add entry).Atomic := by
  intro r r' e h
  rw [on_add] at h
  split at h <;> cases h
  rfl

theorem atomic_generate (draw : Except Error (Octets 96)) : (generate draw).Atomic := by
  intro r r' e h
  unfold generate at h
  rw [Op.on_bind, Op.on_get] at h
  dsimp only at h
  rw [Op.on_bind, Op.on_ofExcept] at h
  cases hversion : KeyFile.versionAfter r.latest? with
  | error e =>
    rw [hversion] at h
    cases h
    rfl
  | ok version =>
    rw [hversion] at h
    dsimp only at h
    rw [Op.on_bind, Op.on_ofExcept] at h
    cases draw with
    | error e =>
      cases h
      rfl
    | ok material =>
      dsimp only at h
      rw [Op.on_bind] at h
      -- adding is what could change the ring, and it is the last to fail
      split at h
      · cases h
      · rename_i hadd
        cases h
        exact atomic_add _ hadd

theorem atomic_replace (made : Except Error KeyRing) : (replace made).Atomic := by
  intro r r' e h
  cases made with
  | error e => cases h; rfl
  | ok r₁ => cases h

/-! ## The key file in a ring -/

/-- The ring shows what the key file shows: the same name, and the same entries under the same
versions. -/
structure Holds (r : KeyRing) (kf : KeyFile) : Prop where
  name_eq : r.name = kf.name.map KeyName.text
  get?_eq : ∀ v, r.get? v = kf.get? v

namespace Holds

theorem version_eq (h : r.Holds kf) {v : UInt32} {e : KeyEntry} (he : (v, e) ∈ r.slots.rows) :
    e.version = v :=
  (KeyFile.get?_eq_some.mp ((h.get?_eq v).symm.trans (VersionMap.get?_eq_some.mpr he))).2

theorem mem_entries (h : r.Holds kf) (e : KeyEntry) : e ∈ r.entries ↔ e ∈ kf.entries := by
  have hslot : ∀ v, (v, e) ∈ r.slots.rows ↔ e ∈ kf.entries ∧ e.version = v := fun v => by
    rw [← VersionMap.get?_eq_some, ← KeyFile.get?_eq_some, ← h.get?_eq]
    rfl
  unfold entries VersionMap.values
  rw [List.mem_reverse, List.mem_map]
  constructor
  · rintro ⟨⟨v, e'⟩, hrow, rfl⟩
    exact ((hslot v).mp hrow).1
  · intro he
    exact ⟨(e.version, e), (hslot e.version).mpr ⟨he, rfl⟩, rfl⟩

theorem descending (h : r.Holds kf) : r.entries.Pairwise fun a b => b.version < a.version := by
  unfold entries VersionMap.values
  rw [List.pairwise_reverse, List.pairwise_map]
  refine r.slots.ascending.imp_of_mem fun {a b} ha hb hlt => ?_
  rw [h.version_eq ha, h.version_eq hb]
  exact hlt

theorem entries_eq (h : r.Holds kf) : r.entries = kf.entries := by
  let kf' : KeyFile := ⟨kf.name, r.entries, h.descending⟩
  have hsame : kf' = kf := KeyFile.ext_of_mem rfl h.mem_entries
  exact congrArg KeyFile.entries hsame

theorem isEmpty_iff (h : r.Holds kf) : r.isEmpty = true ↔ kf.entries = [] := by
  rw [← h.entries_eq, entries, List.reverse_eq_nil_iff, VersionMap.values, List.map_eq_nil_iff]
  exact List.isEmpty_iff

theorem getLatest?_eq (h : r.Holds kf) : r.getLatest? = kf.getLatest? := by
  have hhead : r.getLatest? = r.entries.head? := (List.head?_reverse).symm
  rw [hhead, h.entries_eq]
  rfl

theorem latest?_eq (h : r.Holds kf) : r.latest? = kf.latest? := by
  have hkeys : r.slots.keys = r.slots.values.map KeyEntry.version := by
    rw [VersionMap.values, List.map_map]
    exact List.map_congr_left fun row hrow => (h.version_eq hrow).symm
  rw [latest?, hkeys, List.getLast?_map]
  show r.getLatest?.map KeyEntry.version = _
  rw [h.getLatest?_eq]
  rfl

end Holds

/-! ## The same operations on both -/

/-- A ring is made where a key file is made, and holds it; or both fail with the same error. -/
inductive SameOutcome : Except Error KeyRing → Except Error KeyFile → Prop
  | made {r : KeyRing} {kf : KeyFile} (h : r.Holds kf) : SameOutcome (.ok r) (.ok kf)
  | failed (e : Error) : SameOutcome (.error e) (.error e)

theorem holds_empty (name : Option KeyName) :
    Holds { name := name.map KeyName.text } (.empty name) := ⟨rfl, fun _ => rfl⟩

theorem checkName_eq (text : String) : checkName text = (fun _ => ()) <$> KeyName.parse text := by
  unfold checkName
  cases hflaw : keyNameFlaw text with
  | none =>
    have hname := KeyName.ofText_text ⟨text, hflaw⟩
    dsimp only at hname
    rw [KeyName.parse, hname]
    rfl
  | some flaw =>
    have hrefused : KeyName.ofText text = .error flaw := by
      unfold KeyName.ofText
      split
      · rename_i h
        cases hflaw.symm.trans h
      · rename_i h
        cases hflaw.symm.trans h
        rfl
    rw [KeyName.parse, hrefused]
    rfl

theorem sameOutcome_setName (h : r.Holds kf) (name : Option String) :
    SameOutcome ((setName name).make r) (kf.rename name) := by
  rw [Op.make, on_setName]
  cases name with
  | none => exact .made ⟨rfl, h.get?_eq⟩
  | some text =>
    show SameOutcome _ ((fun n => { kf with name := some n }) <$> KeyName.parse text)
    dsimp only [Option.elim]
    rw [checkName_eq]
    cases hname : KeyName.parse text with
    | error e => exact .failed e
    | ok n => exact .made ⟨congrArg some (KeyFile.text_of_parse hname).symm, h.get?_eq⟩

/-- Adding to the ring makes what adding to the key file makes. -/
theorem sameOutcome_add (h : r.Holds kf) (entry : KeyEntry) :
    SameOutcome ((add entry).make r) (kf.add entry) := by
  rw [Op.make, on_add, h.get?_eq]
  cases hadd : kf.add entry with
  | ok kf' =>
    have hfree : kf.get? entry.version = none :=
      KeyFile.get?_eq_none.mpr (KeyFile.add_eq_ok_iff.mp hadd).1
    rw [hfree]
    refine .made ⟨h.name_eq.trans ?_, fun v => ?_⟩
    · rw [(KeyFile.add_eq_ok_iff.mp hadd).2.1]
    · rw [KeyFile.get?_add hadd, ← h.get?_eq]
      exact VersionMap.get?_insert r.slots entry.version v entry
  | error e =>
    obtain ⟨rfl, -⟩ := KeyFile.add_eq_error.mp hadd
    obtain ⟨e, he⟩ := KeyFile.add_fails_iff.mp ⟨_, hadd⟩
    rw [he]
    exact .failed _

/-- Generating comes to the same version, or fails with the same error. -/
theorem generate_follows (h : r.Holds kf) (material : Octets 96) :
    (∃ v r' kf', (generate (.ok material)).on r = (.ok v, r') ∧
      kf.generate material = .ok (v, kf') ∧ r'.Holds kf') ∨
    ∃ e, (generate (.ok material)).on r = (.error e, r) ∧ kf.generate material = .error e := by
  unfold generate
  rw [Op.on_bind, Op.on_get]
  dsimp only
  rw [Op.on_bind, Op.on_ofExcept, h.latest?_eq, ← KeyFile.nextVersion]
  rcases kf.generate_eq material with ⟨v, kf', hnext, hadd, hgen⟩ | ⟨hlatest, hgen⟩
  · have hmade := sameOutcome_add h (.ofMaterial v material)
    rw [hadd] at hmade
    generalize hring : (add (.ofMaterial v material)).make r = made at hmade
    cases hmade with
    | made hholds =>
      refine .inl ⟨v, _, kf', ?_, hgen, hholds⟩
      rw [hnext]
      dsimp only
      rw [Op.on_bind, Op.on_ofExcept]
      dsimp only
      rw [Op.on_bind, Op.make_eq_ok.mp hring]
      rfl
  · have hnext : kf.nextVersion = .error .versionsExhausted := by
      rw [KeyFile.nextVersion, hlatest]
      rfl
    rw [hnext]
    exact .inr ⟨_, rfl, hgen⟩

/-- Without key material no version is generated, and nothing is done to the ring. -/
theorem generate_error (failure : Error) (r : KeyRing) :
    ∃ e, (generate (.error failure)).on r = (.error e, r) := by
  unfold generate
  rw [Op.on_bind, Op.on_get]
  dsimp only
  rw [Op.on_bind, Op.on_ofExcept]
  cases KeyFile.versionAfter r.latest? with
  | error e => exact ⟨e, rfl⟩
  | ok version => exact ⟨failure, rfl⟩

theorem fst_generate (h : r.Holds kf) (material : Octets 96) :
    ((generate (.ok material)).on r).1 = (kf.generate material).map Prod.fst := by
  rcases generate_follows h material with ⟨v, r', kf', hring, hgen, -⟩ | ⟨e, hring, hgen⟩
  · rw [hring, hgen]
    rfl
  · rw [hring, hgen]
    rfl

theorem sameOutcome_readEntries (h : r.Holds kf) (i : Input) :
    SameOutcome (KeyFile.readEntriesInto (fun r entry => (add entry).make r) r i).1
      (KeyFile.readEntriesInto KeyFile.add kf i).1 := by
  fun_induction KeyFile.readEntriesInto KeyFile.add kf i generalizing r with
  | case1 kf i e i' hend =>
    rw [KeyFile.readEntriesInto_eq, hend]
    exact .failed e
  | case2 kf i i' hend =>
    rw [KeyFile.readEntriesInto_eq, hend]
    exact .made h
  | case3 kf i i₁ hend e i' hread =>
    rw [KeyFile.readEntriesInto_eq, hend]
    dsimp only
    rw [hread]
    exact .failed e
  | case4 kf i i₁ hend entry i₂ hread e hadd =>
    have hmade := sameOutcome_add h entry
    rw [hadd] at hmade
    rw [KeyFile.readEntriesInto_eq, hend]
    dsimp only
    rw [hread]
    dsimp only
    generalize (add entry).make r = made at hmade ⊢
    cases hmade
    exact .failed e
  | case5 kf i i₁ hend entry i₂ hread kf' hadd ih =>
    have hmade := sameOutcome_add h entry
    rw [hadd] at hmade
    rw [KeyFile.readEntriesInto_eq, hend]
    dsimp only
    rw [hread]
    dsimp only
    generalize (add entry).make r = made at hmade ⊢
    cases hmade with
    | made hholds => exact ih hholds

theorem sameOutcome_load (i : Input) : SameOutcome (load i).1 (KeyFile.load i).1 := by
  unfold load KeyFile.load KeyFile.loadInto
  rcases KeyFile.readPreamble.on i with ⟨e | _, i₁⟩
  · exact .failed e
  dsimp only
  rcases KeyFile.headerLayout.readFields none i₁ with ⟨e | name, i₂⟩
  · exact .failed e
  · exact sameOutcome_readEntries (holds_empty name) i₂

theorem sameOutcome_loadLegacy (i : Input) :
    SameOutcome (loadLegacy i).1 (KeyFile.loadLegacy i).1 := by
  unfold loadLegacy KeyFile.loadLegacy
  rcases (KeyEntry.readUnframed 0).on i with ⟨e | entry, i'⟩
  · exact .failed e
  · exact sameOutcome_add (holds_empty none) entry

/-! ## Single operations -/

/-- An operation as work on a ring. -/
def perform : Edit → Op Unit
  | .fresh => set ({} : KeyRing)
  | .named name => replace (withName name)
  | .rename name => setName name
  | .add entry => add entry
  | .generate w => do
    let _ ← generate (.ok (w.draw 96).1)
  | .load input => replace (load input).1
  | .loadLegacy input => replace (loadLegacy input).1

/-- An operation that fails has done nothing to the ring, whatever ring it is. -/
theorem atomic_perform (edit : Edit) : (perform edit).Atomic := by
  cases edit with
  | fresh => intro r r' e h; cases h
  | named name => exact atomic_replace _
  | rename name => exact atomic_setName name
  | add entry => exact atomic_add entry
  | generate w =>
    intro r r' e h
    unfold perform at h
    rw [Op.on_bind] at h
    split at h
    · cases h
    · rename_i hgen
      cases h
      exact atomic_generate _ hgen
  | load input => exact atomic_replace _
  | loadLegacy input => exact atomic_replace _

theorem make_replace (made : Except Error KeyRing) (r : KeyRing) : (replace made).make r = made := by
  cases made <;> rfl

/-- An operation makes a ring that holds what it makes of the key file. -/
theorem sameOutcome_perform (h : r.Holds kf) (edit : Edit) :
    SameOutcome ((perform edit).make r) (edit.result kf) := by
  cases edit with
  | fresh => exact .made (holds_empty none)
  | named name =>
    rw [perform, make_replace]
    -- a new ring is made by giving a name to the empty one
    have hnamed : KeyFile.named name = (KeyFile.empty none).rename name := by cases name <;> rfl
    rw [Edit.result, hnamed]
    exact sameOutcome_setName (holds_empty none) name
  | rename name => exact sameOutcome_setName h name
  | add entry => exact sameOutcome_add h entry
  | generate w =>
    rw [Op.make, perform, Op.on_bind, Edit.result, KeyFile.result_generateFresh]
    rcases generate_follows h (w.draw 96).1 with ⟨v, r', kf', hring, hgen, hholds⟩ | ⟨e, hring, hgen⟩
    · rw [hring, hgen]
      exact .made hholds
    · rw [hring, hgen]
      exact .failed e
  | load input =>
    rw [perform, make_replace]
    exact sameOutcome_load input
  | loadLegacy input =>
    rw [perform, make_replace]
    exact sameOutcome_loadLegacy input

/-! ## Runs -/

/-- The ring after operations, each of which finds the ring as the one before has left it. -/
def after (r : KeyRing) (edits : List Edit) : KeyRing :=
  edits.foldl (fun r edit => ((perform edit).on r).2) r

theorem Holds.step (h : r.Holds kf) (edit : Edit) :
    ((perform edit).on r).2.Holds (kf.afterEdit edit) := by
  have hsame := sameOutcome_perform h edit
  unfold KeyFile.afterEdit
  generalize hmade : (perform edit).make r = made at hsame
  generalize edit.result kf = result at hsame
  cases hsame with
  | made hholds =>
    rw [Op.make_eq_ok.mp hmade]
    exact hholds
  | failed e =>
    rw [Op.Atomic.on_of_make (atomic_perform edit) hmade]
    exact h

/-- After a run of operations the ring holds the key file that the same run leads to. -/
theorem Holds.after (h : r.Holds kf) (edits : List Edit) :
    (r.after edits).Holds (kf.afterEdits edits) := by
  induction edits generalizing r kf with
  | nil => exact h
  | cons edit edits ih => exact ih (h.step edit)

/-- **The state of a key ring after any run of operations.** Every slot holds an entry of its own
version, and the entries come in descending order; the newest entry has the newest version, which is
the greatest; the name is legal, if there is one. An operation that fails leaves the ring as it was. A
version is added unless it is there already; the version that is generated is the one after the
newest, unless that is the greatest number there is; and neither of them, nor a new name, touches the
material of a version. The ring holds the key file that the same run leads to. -/
theorem after_invariant (edits : List Edit) :
    let r : KeyRing := KeyRing.after {} edits
    (∀ v e, r.get? v = some e → e.version = v) ∧
    (∀ e, e ∈ r.entries ↔ r.get? e.version = some e) ∧
    (r.entries.map KeyEntry.version).Pairwise (· > ·) ∧
    r.latest? = r.getLatest?.map KeyEntry.version ∧
    (∀ v, r.latest? = some v ↔ IsGreatest {u | ∃ e, r.get? u = some e} v) ∧
    ((r.latest? = none ↔ r.isEmpty = true) ∧ (r.getLatest? = none ↔ r.isEmpty = true)) ∧
    (∀ name, r.name = some name → keyNameFlaw name = none) ∧
    (∀ edit e r', (perform edit).on r = (.error e, r') → r' = r) ∧
    (∀ entry, (∃ e, ((add entry).on r).1 = .error e) ↔ ∃ e, r.get? entry.version = some e) ∧
    (∀ material,
      let result := ((generate (.ok material)).on r).1
      (r.latest? = none → result = .ok 0) ∧
      (∀ v, r.latest? = some v → v ≠ 4294967295 →
        ∃ v', result = .ok v' ∧ v'.toNat = v.toNat + 1) ∧
      ((∃ e, result = .error e) ↔ r.latest? = some 4294967295)) ∧
    (∀ failure, ∃ e, (generate (.error failure)).on r = (.error e, r)) ∧
    (∀ more : List Edit, (∀ edit ∈ more, edit.Extends) → ∀ v e, r.get? v = some e →
      (r.after more).get? v = some e) ∧
    r.Holds ((KeyFile.empty none).afterEdits edits) := by
  intro r
  have h : r.Holds ((KeyFile.empty none).afterEdits edits) := (holds_empty none).after edits
  generalize (KeyFile.empty none).afterEdits edits = kf at h ⊢
  have hslot : ∀ {v e}, r.get? v = some e ↔ e ∈ kf.entries ∧ e.version = v := fun {v e} => by
    rw [h.get?_eq, KeyFile.get?_eq_some]
  refine ⟨fun v e he => (hslot.mp he).2, fun e => ?_, List.pairwise_map.mpr h.descending, ?_,
    fun v => ?_, ⟨?_, ?_⟩, fun name hname => ?_, fun edit e r' => atomic_perform edit,
    fun entry => add_fails_iff, fun material => ?_, fun failure => generate_error failure r,
    fun more hext v e he => ?_, h⟩
  · rw [h.mem_entries, hslot]
    exact ⟨fun he => ⟨he, rfl⟩, And.left⟩
  · rw [h.latest?_eq, h.getLatest?_eq]
    exact kf.latest?_eq_map
  · rw [h.latest?_eq, KeyFile.latest?_eq_some]
    constructor
    · rintro ⟨⟨e, he, hv⟩, hmax⟩
      refine ⟨⟨e, hslot.mpr ⟨he, hv⟩⟩, ?_⟩
      rintro _ ⟨x, hx⟩
      obtain ⟨hmem, rfl⟩ := hslot.mp hx
      exact hmax x hmem
    · rintro ⟨⟨e, he⟩, hmax⟩
      exact ⟨⟨e, hslot.mp he⟩, fun x hx => hmax ⟨x, hslot.mpr ⟨hx, rfl⟩⟩⟩
  · rw [h.latest?_eq, h.isEmpty_iff, KeyFile.latest?_eq_none]
  · rw [h.getLatest?_eq, h.isEmpty_iff, KeyFile.getLatest?_eq_none]
  · obtain ⟨n, -, rfl⟩ := Option.map_eq_some_iff.mp (h.name_eq.symm.trans hname)
    exact n.valid
  · intro result
    have hresult : result = (kf.generate material).map Prod.fst := fst_generate h material
    obtain ⟨hfirst, hnext, hlast⟩ := kf.generate_version material
    rw [h.latest?_eq, hresult]
    refine ⟨fun hnone => ?_, fun v hv hmax => ?_, ?_⟩
    · obtain ⟨kf', hgen⟩ := hfirst hnone
      rw [hgen]
      rfl
    · obtain ⟨v', kf', hgen, hv'⟩ := hnext v hv hmax
      rw [hgen]
      exact ⟨v', rfl, hv'⟩
    · rw [← hlast]
      cases kf.generate material <;> simp [Except.map]
  · rw [(h.after more).get?_eq]
    rw [h.get?_eq] at he
    exact KeyFile.get?_afterEdits hext he

/-- Behind the greatest number there is no next version, however many of the others are free. -/
example (material : Octets 96) :
    ((generate (.ok material)).on (after {} [.add (.ofMaterial 0xffffffff material)])).1 =
      .error .versionsExhausted := rfl

end RepoSeal.KeyRing
