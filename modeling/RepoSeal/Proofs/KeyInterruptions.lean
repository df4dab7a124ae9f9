import RepoSeal.Proofs.KeyFaults

/-!
# RepoSeal — interruptions while a key is read

Exact reads go on after an interruption, so an entry is read as if there were none (`read_agrees`). The
look for the end of the data does not: it asks the source once, and reports an interruption as a fault.
So a key is loaded as if there were none, or not at all (`readEntries_agrees_or_interrupted`). Where the
source is interrupted before every read, no key is ever loaded, for a reading that succeeds has looked
past the last byte, where the buffer is empty and the source is asked (`readEntriesInto_ne_ok`).
-/

namespace RepoSeal

open Reader

variable {i j : Input} {σ σ' : Input.Setting} {b rest : Bytes}

/-- The schedule without its interruptions. -/
def Schedule.uninterrupted (schedule : Schedule) : Schedule :=
  fun n => { schedule n with interruptions := 0 }

/-! ## Settings with the same ending -/

theorem Input.Setting.cutShort_congr (hending : σ.ending = σ'.ending) (how : Passage)
    (context : String) : σ.cutShort how context = σ'.cutShort how context := by
  rw [cutShort, cutShort, hending]

theorem Layout.readCutting_congr {τ : Type} (l : Layout τ) (hending : σ.ending = σ'.ending) (st : τ)
    (fs : List TaggedField) (tail : FieldTail) :
    l.readCutting σ st fs tail = l.readCutting σ' st fs tail := by
  unfold readCutting
  simp only [Input.Setting.cutShort_congr hending]

/-- An entry is read the same way in settings with the same ending. -/
theorem KeyEntry.read_agrees (hending : σ.ending = σ'.ending) (hi : i.Delivers b σ)
    (hj : j.Delivers b σ') : ∃ o, Yields (read i) σ o ∧ Yields (read j) σ' o := by
  obtain ⟨fs, tail, rfl⟩ := exists_cutting b
  have hread := read_yields fs tail hi
  rw [layout.readCutting_congr hending] at hread
  exact ⟨_, hread, read_yields fs tail hj⟩

/-- A look for the end is interrupted, or is what it is in a quiet setting with the same ending. -/
theorem Reader.atEnd_agrees_or_interrupted (hcapacity : 0 < σ.capacity) (hσ' : σ'.Quiet)
    (hending : σ.ending = σ'.ending) (hi : i.Delivers b σ) (hj : j.Delivers b σ') :
    (atEnd.on i).1 = .error (.io .interrupted) ∨
      ∃ o, Yields (atEnd.on i) σ o ∧ Yields (atEnd.on j) σ' o := by
  rw [on_atEnd i]
  rcases Input.fill_cases hcapacity hi with ⟨i', hf⟩ | ⟨x, c, i', hf, hne, hi'⟩ | ⟨i', hf, rfl⟩
  · rw [hf]
    exact .inl rfl
  · obtain ⟨j', hend, hj'⟩ := atEnd_of_ne_nil hσ' hj hne
    rw [hf, hend]
    exact .inr ⟨.ok (false, b), ⟨rfl, hi'⟩, rfl, hj'⟩
  · have hend := atEnd_of_nil hσ' hj
    rw [hf, hending]
    cases hfault : σ'.ending with
    | none =>
      rw [hfault] at hend
      rw [hending, hfault] at hf
      exact .inr ⟨.ok (true, []), ⟨rfl, Input.delivers_of_fill hi hf⟩, hend⟩
    | some fault =>
      rw [hfault] at hend
      exact .inr ⟨.error (.io fault), rfl, hend⟩

namespace KeyFile

/-- The entries are read as in a quiet setting with the same ending, or a look for the end is
interrupted. -/
theorem readEntries_agrees_or_interrupted (hcapacity : 0 < σ.capacity) (hσ' : σ'.Quiet)
    (hending : σ.ending = σ'.ending) (kf : KeyFile) (hi : i.Delivers b σ) (hj : j.Delivers b σ') :
    (readEntries kf i).1 = (readEntries kf j).1 ∨
      (readEntries kf i).1 = .error (.io .interrupted) := by
  induction hn : b.length using Nat.strongRecOn generalizing b kf i j with
  | ind n ih =>
    rw [readEntries_eq kf i, readEntries_eq kf j]
    rcases atEnd_agrees_or_interrupted hcapacity hσ' hending hi hj with hint | ⟨o, hend, hend'⟩
    · obtain ⟨i', hint⟩ := eq_error_of_fst hint
      rw [hint]
      exact .inr rfl
    cases o with
    | error e =>
      obtain ⟨i', hfail⟩ := eq_error_of_fst hend
      obtain ⟨j', hfail'⟩ := eq_error_of_fst hend'
      rw [hfail, hfail']
      exact .inl rfl
    | ok o =>
      obtain ⟨ended, b'⟩ := o
      obtain ⟨i₁, hok, hi₁⟩ := hend.eq_ok
      obtain ⟨j₁, hok', hj₁⟩ := hend'.eq_ok
      rw [hok, hok']
      cases ended with
      | true => exact .inl rfl
      | false =>
        dsimp only
        -- the look takes nothing, and an entry takes at least its end mark
        have hsame : b' = b := by
          rw [← hi₁.remaining_eq, atEnd_ok hok, hi.remaining_eq]
        obtain ⟨o, hread, hread'⟩ := KeyEntry.read_agrees hending hi₁ hj₁
        cases o with
        | error e =>
          obtain ⟨i', hfail⟩ := eq_error_of_fst hread
          obtain ⟨j', hfail'⟩ := eq_error_of_fst hread'
          rw [hfail, hfail']
          exact .inl rfl
        | ok o =>
          obtain ⟨entry, rest⟩ := o
          obtain ⟨i₂, hentry, hi₂⟩ := hread.eq_ok
          obtain ⟨j₂, hentry', hj₂⟩ := hread'.eq_ok
          rw [hentry, hentry']
          dsimp only
          cases kf.add entry with
          | error e => exact .inl rfl
          | ok kf' =>
            have hless := KeyEntry.read_ok hentry
            rw [hi₂.remaining_eq, hi₁.remaining_eq, hsame] at hless
            exact ih rest.length (by omega) kf' hi₂ hj₂ rfl

theorem load_agrees_or_interrupted (hcapacity : 0 < σ.capacity) (hσ' : σ'.Quiet)
    (hending : σ.ending = σ'.ending) (hi : i.Delivers b σ) (hj : j.Delivers b σ') :
    (load i).1 = (load j).1 ∨ (load i).1 = .error (.io .interrupted) := by
  rcases load_front_cases b with ⟨e, -, he⟩ | ⟨how, -, hcut⟩ | ⟨header, name, rest, -, -, hread⟩
  · exact .inl ((he i σ hi).trans (he j σ' hj).symm)
  · rw [hcut i σ hi, hcut j σ' hj, Input.Setting.cutShort_congr hending]
    exact .inl rfl
  · obtain ⟨i', hi', hload⟩ := hread i σ hi
    obtain ⟨j', hj', hload'⟩ := hread j σ' hj
    rw [hload, hload']
    exact readEntries_agrees_or_interrupted hcapacity hσ' hending (empty name) hi' hj'

theorem loadLegacy_agrees_or_interrupted (hcapacity : 0 < σ.capacity) (hσ' : σ'.Quiet)
    (hending : σ.ending = σ'.ending) (hi : i.Delivers b σ) (hj : j.Delivers b σ') :
    (loadLegacy i).1 = (loadLegacy j).1 ∨ (loadLegacy i).1 = .error (.io .interrupted) := by
  rcases loadLegacy_front_cases b with ⟨-, hcut⟩ | ⟨-, rest, kf, -, -, hread⟩
  · rw [hcut i σ hi, hcut j σ' hj, Input.Setting.cutShort_congr hending]
    exact .inl rfl
  obtain ⟨i', hi', hload⟩ := hread i σ hi
  obtain ⟨j', hj', hload'⟩ := hread j σ' hj
  rw [hload, hload']
  rcases atEnd_agrees_or_interrupted hcapacity hσ' hending hi' hj' with hint | ⟨o, hend, hend'⟩
  · rw [hint]
    exact .inr rfl
  cases o with
  | error e =>
    left
    rw [show (atEnd.on i').1 = .error e from hend, show (atEnd.on j').1 = .error e from hend']
  | ok o => exact .inl (by rw [hend.1, hend'.1])

end KeyFile

/-! ## Sources that are interrupted before every read -/

/-- Every answered read of the source comes after an interruption, and so does the next one. -/
structure Input.Hampered (i : Input) : Prop where
  interrupted : i.source.interrupted = 0
  turn : ∀ n, 0 < (i.source.schedule n).interruptions

theorem Source.interrupted_of_read {s s' : Source} {asked : Nat}
    (h : s.read asked = (.bytes b, s')) : s'.interrupted = 0 := by
  unfold read at h
  dsimp only at h
  split at h
  · cases h
  · split at h <;> cases h <;> rfl

namespace Input

variable {i' : Input} {asked : Nat}

/-- Where a reader can be between two reads: at the beginning of a turn, or waiting in front of it. -/
theorem interrupted_of_fill (hi : i.held = [] ∨ i.source.interrupted = 0)
    (h : i.fill = (.bytes b, i')) : i'.source.interrupted = 0 := by
  unfold fill at h
  split at h
  · generalize hr : i.source.read i.capacity = r at h
    obtain ⟨o, s⟩ := r
    cases o <;> cases h
    exact Source.interrupted_of_read hr
  · rename_i hheld
    cases h
    exact hi.resolve_left hheld

theorem interrupted_of_read (hi : i.held = [] ∨ i.source.interrupted = 0)
    (h : i.read asked = (.bytes b, i')) : i'.source.interrupted = 0 := by
  unfold read at h
  split at h
  · generalize hr : i.source.read asked = r at h
    obtain ⟨o, s⟩ := r
    cases h
    exact Source.interrupted_of_read hr
  · generalize hf : i.fill = r at h
    obtain ⟨o, j⟩ := r
    cases o <;> cases h
    have hj : j.source.interrupted = 0 := interrupted_of_fill hi hf
    exact hj

theorem held_of_read_interrupted (h : i.read asked = (.interrupted, i')) : i'.held = [] := by
  unfold read at h
  split at h
  · rename_i hc
    generalize hr : i.source.read asked = r at h
    obtain ⟨o, s⟩ := r
    cases h
    exact List.isEmpty_iff.mp (Bool.and_eq_true_iff.mp hc).1
  · generalize hf : i.fill = r at h
    obtain ⟨o, j⟩ := r
    cases o <;> cases h
    unfold fill at hf
    split at hf
    · rename_i hheld
      generalize hr : i.source.read i.capacity = r at hf
      obtain ⟨o, s⟩ := r
      cases o <;> cases hf
      exact hheld
    · cases hf

theorem interrupted_of_readExactAfter {got : Array UInt8}
    (hi : i.source.interrupted = 0 ∨ (i.held = [] ∧ asked ≠ 0))
    (h : i.readExactAfter asked got = (.bytes b, i')) : i'.source.interrupted = 0 := by
  fun_induction readExactAfter i asked got with
  | case1 =>
    cases h
    exact hi.resolve_right fun hwait => hwait.2 rfl
  | case2 i asked got hne i₁ hr ih => exact ih (.inr ⟨held_of_read_interrupted hr, hne⟩) h
  | case3 => cases h
  | case4 => cases h
  | case5 i asked got hne x c i₁ hr ih =>
    exact ih (.inl (interrupted_of_read (hi.symm.imp_left And.left) hr)) h

theorem hampered_of_setting (hi : i.Hampered) (hset : i'.setting = i.setting)
    (hturn : i'.source.interrupted = 0) : i'.Hampered where
  interrupted := hturn
  turn := by
    have hschedule : i'.source.schedule = i.source.schedule := congrArg Setting.schedule hset
    rw [hschedule]
    exact hi.turn

end Input

namespace Reader

variable {α β : Type}

/-- A parser that succeeds leaves the source at the beginning of a turn. -/
def KeepsHampered (p : Reader α) : Prop :=
  ∀ {i i' : Input} {a : α}, i.Hampered → p.on i = (.ok a, i') → i'.Hampered

theorem keepsHampered_pure (a : α) : KeepsHampered (pure a : Reader α) := by
  intro i i' a' hi h
  cases h
  exact hi

theorem keepsHampered_fail (e : Error) : KeepsHampered (fail e : Reader α) := by
  intro i i' a hi h
  cases h

theorem keepsHampered_bind {p : Reader α} {f : α → Reader β} (hp : p.KeepsHampered)
    (hf : ∀ a, (f a).KeepsHampered) : (p >>= f).KeepsHampered := by
  intro i i' b hi h
  obtain ⟨a, j, ha, hb⟩ := on_bind_ok h
  exact hf a (hp hi ha) hb

theorem hampered_of_readExact {asked : Nat} {i' : Input} (hi : i.Hampered)
    (h : i.readExact asked = (.bytes b, i')) : i'.Hampered := by
  refine Input.hampered_of_setting hi ?_ (Input.interrupted_of_readExactAfter (.inl hi.interrupted) h)
  exact (congrArg (·.2.setting) h).symm.trans (i.setting_readExactAfter asked #[])

theorem keepsHampered_take (context : String) (asked : Nat) : (take context asked).KeepsHampered := by
  intro i i' b hi h
  rw [on_take] at h
  split at h
  · rename_i hr
    cases h
    exact hampered_of_readExact hi hr
  · cases h
  · cases h

theorem keepsHampered_skip (context : String) (asked : Nat) : (skip context asked).KeepsHampered := by
  intro i i' u hi h
  rw [on_skip] at h
  split at h
  · rename_i hr
    cases h
    exact hampered_of_readExact hi hr
  · cases h
  · cases h

theorem keepsHampered_word (context : String) : (word context).KeepsHampered :=
  keepsHampered_bind (keepsHampered_take context 4) fun b => keepsHampered_pure (ofBe32 b)

theorem keepsHampered_note (f : PassedField) : (note f).KeepsHampered := by
  intro i i' a hi h
  cases h
  exact ⟨hi.interrupted, hi.turn⟩

/-- No look for the end finds it. -/
theorem atEnd_of_hampered {ended : Bool} {i' : Input} (hi : i.Hampered)
    (h : atEnd.on i = (.ok ended, i')) : ended = false ∧ i'.Hampered := by
  rw [on_atEnd] at h
  generalize hf : i.fill = r at h
  obtain ⟨o, j⟩ := r
  cases o with
  | interrupted => cases h
  | failed fault => cases h
  | bytes b =>
    cases h
    refine ⟨?_, Input.hampered_of_setting hi ((congrArg (·.2.setting) hf).symm.trans i.setting_fill)
      (Input.interrupted_of_fill (.inr hi.interrupted) hf)⟩
    -- with an empty buffer it would have to be a read, and the next read is interrupted
    cases hheld : i.held with
    | cons x c =>
      rw [Input.fill, hheld] at hf
      cases hf
      rfl
    | nil =>
      have hlt : i.source.interrupted < (i.source.schedule i.source.turn).interruptions := by
        rw [hi.interrupted]
        exact hi.turn _
      have hread : i.source.read i.capacity =
          (.interrupted, { i.source with interrupted := i.source.interrupted + 1 }) := if_pos hlt
      rw [Input.fill, hheld] at hf
      simp only [hread] at hf
      cases hf

end Reader

namespace Field

theorem keepsHampered_next (context : String) : (next context).KeepsHampered := by
  refine keepsHampered_bind (keepsHampered_word context) fun id => ?_
  split
  · exact keepsHampered_pure none
  · exact keepsHampered_bind (keepsHampered_word context) fun length => keepsHampered_pure _

theorem keepsHampered_passOver (context : String) (id length : UInt32) :
    (passOver context id length).KeepsHampered := by
  unfold passOver
  split
  · exact keepsHampered_fail _
  · split
    · exact keepsHampered_fail _
    · exact keepsHampered_bind (keepsHampered_note _) fun _ => keepsHampered_skip _ _

end Field

namespace Layout

variable {τ : Type} (l : Layout τ)

theorem keepsHampered_readField (st : τ) (id length : UInt32) :
    (l.readField st id length).KeepsHampered := by
  unfold readField
  split
  · exact keepsHampered_bind (Field.keepsHampered_passOver _ _ _) fun _ => keepsHampered_pure st
  · split
    · exact keepsHampered_fail _
    · refine keepsHampered_bind (keepsHampered_take _ _) fun payload => ?_
      split
      · exact keepsHampered_pure _
      · exact keepsHampered_fail _

theorem hampered_of_readFields {st st' : τ} {i' : Input} (hi : i.Hampered)
    (h : l.readFields st i = (.ok st', i')) : i'.Hampered := by
  fun_induction readFields l st i with
  | case1 => cases h
  | case2 st i i₁ hn =>
    cases h
    exact Field.keepsHampered_next _ hi hn
  | case3 => cases h
  | case4 st i id length i₁ hn st₁ i₂ hf ih =>
    exact ih (l.keepsHampered_readField st id length (Field.keepsHampered_next _ hi hn) hf) h

end Layout

theorem KeyEntry.hampered_of_read {entry : KeyEntry} {i' : Input} (hi : i.Hampered)
    (h : read i = (.ok entry, i')) : i'.Hampered := by
  unfold read at h
  split at h
  · cases h
  · rename_i hr
    split at h <;> cases h
    exact layout.hampered_of_readFields hi hr

namespace KeyFile

/-- The entries never come to an end. -/
theorem readEntriesInto_ne_ok {α : Type} {add : α → KeyEntry → Except Error α} {made made' : α}
    (hi : i.Hampered) : (readEntriesInto add made i).1 ≠ .ok made' := by
  intro h
  fun_induction readEntriesInto add made i with
  | case1 => cases h
  | case2 made i i₁ hend => cases (atEnd_of_hampered hi hend).1
  | case3 => cases h
  | case4 => cases h
  | case5 made i i₁ hend entry i₂ hread made₁ hadd ih =>
    exact ih (KeyEntry.hampered_of_read (atEnd_of_hampered hi hend).2 hread) h

theorem load_ne_ok {kf : KeyFile} (hi : i.Hampered) : (load i).1 ≠ .ok kf := by
  intro h
  unfold load loadInto at h
  split at h
  · cases h
  · rename_i i₁ hpreamble
    have hkept : readPreamble.KeepsHampered := by
      refine keepsHampered_bind (keepsHampered_take _ _) fun preamble => ?_
      dsimp only
      split
      · exact keepsHampered_fail _
      · split
        · exact keepsHampered_fail _
        · exact keepsHampered_pure ()
    have hi₁ := hkept hi hpreamble
    split at h
    · cases h
    · rename_i hheader
      exact readEntriesInto_ne_ok (headerLayout.hampered_of_readFields hi₁ hheader) h

theorem loadLegacy_ne_ok {kf : KeyFile} (hi : i.Hampered) : (loadLegacy i).1 ≠ .ok kf := by
  intro h
  unfold loadLegacy at h
  split at h
  · cases h
  · rename_i entry i' hread
    obtain ⟨c, i₁, hc, hread⟩ := on_bind_ok hread
    obtain ⟨d, i₂, hd, hread⟩ := on_bind_ok hread
    have hi₂ := keepsHampered_take _ _ (keepsHampered_take _ _ hi hc) hd
    obtain ⟨ended, i₃, hend, hread⟩ := on_bind_ok hread
    rw [(atEnd_of_hampered hi₂ hend).1] at hread
    cases hread

/-! ## Schedules with and without interruptions -/

/-- **Interruptions while a key is read.** An entry is read as if there were none. A key file and an
unframed key are loaded as if there were none, or the loading fails with the interruption; and that is
what becomes of every key that could be loaded, if there is an interruption before every read. -/
theorem load_of_interruptions (b : Bytes) (ending : Option LastingFault) (schedule : Schedule)
    (capacity : Nat) (hcapacity : 0 < capacity) :
    let input : Schedule → Input := fun schedule => .ofSource { rest := b, ending, schedule } capacity
    let quiet : Input := input schedule.uninterrupted
    (KeyEntry.read (input schedule)).1 = (KeyEntry.read quiet).1 ∧
    ((load (input schedule)).1 = (load quiet).1 ∨
      (load (input schedule)).1 = .error (.io .interrupted)) ∧
    ((loadLegacy (input schedule)).1 = (loadLegacy quiet).1 ∨
      (loadLegacy (input schedule)).1 = .error (.io .interrupted)) ∧
    ((∀ n, 0 < (schedule n).interruptions) → ∀ kf,
      ((load quiet).1 = .ok kf → (load (input schedule)).1 = .error (.io .interrupted)) ∧
      ((loadLegacy quiet).1 = .ok kf →
        (loadLegacy (input schedule)).1 = .error (.io .interrupted))) := by
  intro input quiet
  have hi : (input schedule).Delivers b (input schedule).setting := ⟨rfl, rfl⟩
  have hj : quiet.Delivers b quiet.setting := ⟨rfl, rfl⟩
  have hending : (input schedule).setting.ending = quiet.setting.ending := rfl
  have hquiet : quiet.setting.Quiet := ⟨hcapacity, fun n => rfl⟩
  have hload := load_agrees_or_interrupted hcapacity hquiet hending hi hj
  have hlegacy := loadLegacy_agrees_or_interrupted hcapacity hquiet hending hi hj
  refine ⟨?_, hload, hlegacy, fun hturns kf => ⟨fun hok => ?_, fun hok => ?_⟩⟩
  · obtain ⟨o, hread, hread'⟩ := KeyEntry.read_agrees hending hi hj
    cases o with
    | error e => exact Eq.trans hread (Eq.symm hread')
    | ok o => exact hread.1.trans hread'.1.symm
  · exact hload.resolve_left fun hsame => load_ne_ok ⟨rfl, hturns⟩ (hsame.trans hok)
  · exact hlegacy.resolve_left fun hsame => loadLegacy_ne_ok ⟨rfl, hturns⟩ (hsame.trans hok)

/-- A key file of one version, three bytes and two interruptions at a time. -/
theorem load_of_interruptions_everyTurn :
    let kf : KeyFile := ⟨none, [⟨3, .replicate 32 7, .replicate 64 9⟩], by decide⟩
    let schedule : Schedule := fun _ => { interruptions := 2, atMost := some 3 }
    let input : Schedule → Input := fun schedule => .ofSource { rest := kf.encode, schedule } 2
    (load (input schedule.uninterrupted)).1 = .ok kf ∧
      (load (input schedule)).1 = .error (.io .interrupted) := by
  intro kf schedule input
  have hok : (load (input schedule.uninterrupted)).1 = .ok kf :=
    (load_eq_decode rfl ⟨Nat.two_pos, fun n => rfl⟩ ⟨rfl, rfl⟩).trans kf.decode_encode
  have h := load_of_interruptions kf.encode none schedule 2 Nat.two_pos
  exact ⟨hok, (h.2.2.2 (fun n => Nat.two_pos) kf).1 hok⟩

/-- An interruption in front of the read that would report the end of the data makes the loading of a
key file fail that is loaded without it. -/
theorem load_fails_of_interruption :
    let input : Schedule → Input := fun schedule =>
      .ofSource { rest := (empty none).encode, schedule } 64
    (load (input .prompt)).1 = .ok (empty none) ∧
      (load (input fun _ => { interruptions := 1 })).1 = .error (.io .interrupted) := by
  intro input
  have hi : ∀ schedule, (input schedule).Delivers (empty none).encode (input schedule).setting :=
    fun schedule => ⟨rfl, rfl⟩
  have hending : ∀ schedule, (input schedule).setting.ending = (input .prompt).setting.ending :=
    fun schedule => rfl
  have hquiet : (input .prompt).setting.Quiet := ⟨by decide, fun n => rfl⟩
  have hok : (load (input .prompt)).1 = .ok (empty none) :=
    (load_eq_decode rfl hquiet (hi .prompt)).trans (decode_encode (empty none))
  refine ⟨hok, ?_⟩
  rcases load_agrees_or_interrupted (by decide) hquiet (hending _)
    (hi fun _ => { interruptions := 1 }) (hi .prompt) with hsame | hint
  · exact absurd (hsame.trans hok) (load_ne_ok ⟨rfl, fun n => Nat.one_pos⟩)
  · exact hint

end KeyFile

end RepoSeal
