import RepoSeal.Proofs.Streams
import RepoSeal.Stream.InputLemmas

/-!
# RepoSeal — what an input delivers

A parser takes bytes off the front of an input. What it finds there depends on two things alone: the
bytes that remain, and how the data ends, by its end or by a fault. How the source cuts its bytes and
how much of them the buffer holds drop out (`readExact_of_le`, `readExact_of_lt`). Only the look for
the end of the data can be disturbed, by an interruption, so it asks for a setting without them.
-/

namespace RepoSeal

namespace Source

theorem ending_read (s : Source) (asked : Nat) : (s.read asked).2.ending = s.ending := by
  unfold read
  dsimp only
  split
  · rfl
  · split <;> rfl

theorem schedule_read (s : Source) (asked : Nat) : (s.read asked).2.schedule = s.schedule := by
  unfold read
  dsimp only
  split
  · rfl
  · split <;> rfl

theorem read_ne_interrupted {s s' : Source} {asked : Nat}
    (hquiet : ∀ n, (s.schedule n).interruptions = 0) : s.read asked ≠ (.interrupted, s') := by
  intro h
  unfold read at h
  dsimp only at h
  split at h
  · rename_i hlt
    rw [hquiet] at hlt
    omega
  · split at h <;> cases h

end Source

/-- How a parser gets behind bytes. -/
inductive Passage
  | taken
  | passedOver
deriving DecidableEq, Repr

namespace Input

/-! ## The setting

All that reading never changes about an input: how its data ends, how its source cuts the data, and
how much the buffer may hold. -/

structure Setting where
  /-- What stands behind the last byte: a fault, or else the end of the data. -/
  ending : Option LastingFault
  schedule : Schedule
  capacity : Nat

def setting (i : Input) : Setting := ⟨i.source.ending, i.source.schedule, i.capacity⟩

namespace Setting

/-- The setting of a byte string in memory. -/
def memory : Setting := ⟨none, .prompt, 8192⟩

/-- No read is interrupted, and reading ahead reads something. -/
structure Quiet (σ : Setting) : Prop where
  capacity_pos : 0 < σ.capacity
  interruptions : ∀ n, (σ.schedule n).interruptions = 0

theorem quiet_memory : Quiet memory := ⟨by decide, fun _ => rfl⟩

/-- What a parser fails with that needs more bytes than the data has. Where it takes them, a fault may
count as the end of the data. -/
def cutShort (σ : Setting) (how : Passage) (context : String) : Error :=
  match σ.ending with
  | none => .malformed (.truncated context)
  | some fault => if how = .taken then Reader.shortfall context fault else .io fault

/-- In memory the data just ends. -/
theorem cutShort_memory (how : Passage) (context : String) :
    memory.cutShort how context = .malformed (.truncated context) := rfl

end Setting

theorem setting_fill (i : Input) : i.fill.2.setting = i.setting := by
  unfold fill
  split
  · generalize hr : i.source.read i.capacity = r
    have hending : r.2.ending = i.source.ending := hr ▸ i.source.ending_read _
    have hschedule : r.2.schedule = i.source.schedule := hr ▸ i.source.schedule_read _
    obtain ⟨o, s⟩ := r
    cases o <;> simp_all [setting]
  · rfl

theorem setting_read (i : Input) (asked : Nat) : (i.read asked).2.setting = i.setting := by
  unfold read
  split
  · simp only [setting, Source.ending_read, Source.schedule_read]
  · have hfill := i.setting_fill
    generalize i.fill = r at hfill ⊢
    obtain ⟨o, j⟩ := r
    cases o <;> exact hfill

theorem setting_readExactAfter (i : Input) (asked : Nat) (got : Array UInt8) :
    (i.readExactAfter asked got).2.setting = i.setting := by
  fun_induction readExactAfter i asked got with
  | case1 i got => rfl
  | case2 i asked got _ i' hr ih => rw [ih, ← i.setting_read asked, hr]
  | case3 i asked got _ fault i' hr => rw [← i.setting_read asked, hr]
  | case4 i asked got _ i' hr => rw [← i.setting_read asked, hr]
  | case5 i asked got _ x c i' hr ih => rw [ih, ← i.setting_read asked, hr]

/-! ## Exact reads -/

/-- A read that brings no bytes is a read of the source: the buffer holds nothing. -/
theorem source_read_of_barren {i i' : Input} {asked : Nat} {o : ReadOutcome} (hpos : 0 < asked)
    (h : i.read asked = (o, i')) (ho : o = .bytes [] ∨ ∃ fault, o = .failed fault) :
    i.held = [] ∧ ∃ n s, 0 < n ∧ i.source.read n = (o, s) := by
  unfold read at h
  split at h
  · rename_i hc
    have hheld : i.held = [] := List.isEmpty_iff.mp (Bool.and_eq_true_iff.mp hc).1
    generalize hr : i.source.read asked = r at h
    obtain ⟨o', s⟩ := r
    cases h
    exact ⟨hheld, asked, s, hpos, hr⟩
  · rename_i hc
    -- what is read ahead is barren too, for at least one byte of it would have been passed on
    have hfill : i.fill.1 = o := by
      generalize i.fill = r at h
      obtain ⟨o', j⟩ := r
      cases o' with
      | interrupted => exact (Prod.mk.inj h).1
      | failed fault => exact (Prod.mk.inj h).1
      | bytes b =>
        obtain ⟨rfl, -⟩ := Prod.mk.inj h
        rcases ho with hnil | ⟨fault, hfault⟩
        · have htake : b.take asked = [] := ReadOutcome.bytes.inj hnil
          rcases List.take_eq_nil_iff.mp htake with hzero | rfl
          · omega
          · rw [List.take_nil]
        · cases hfault
    -- and reading ahead is barren only where it goes to the source
    unfold fill at hfill
    split at hfill
    · rename_i hheld
      have hcap : 0 < i.capacity := by
        rw [hheld] at hc
        simp only [List.isEmpty_nil, Bool.true_and, decide_eq_true_eq] at hc
        omega
      refine ⟨hheld, i.capacity, (i.source.read i.capacity).2, hcap, ?_⟩
      generalize i.source.read i.capacity = r at hfill
      obtain ⟨o', s⟩ := r
      cases o' <;> cases hfill <;> rfl
    · rename_i hne
      rcases ho with rfl | ⟨fault, rfl⟩
      · exact absurd (ReadOutcome.bytes.inj hfill) hne
      · cases hfill

theorem remaining_of_read_failed {i i' : Input} {asked : Nat} {fault : Fault} (hpos : 0 < asked)
    (h : i.read asked = (.failed fault, i')) :
    i.remaining = [] ∧ ∃ last : LastingFault, i.source.ending = some last ∧ last = fault := by
  obtain ⟨hheld, n, s, hn, hr⟩ := source_read_of_barren hpos h (.inr ⟨fault, rfl⟩)
  cases Source.served_of_read hn hr with
  | broken last _ hrest hending =>
    exact ⟨by rw [remaining, hheld, hrest, List.append_nil], last, hending, rfl⟩

/-- A read that delivers nothing, though bytes were asked for, has met the end of the data. -/
theorem remaining_of_read_nil {i i' : Input} {asked : Nat} (hpos : 0 < asked)
    (h : i.read asked = (.bytes [], i')) : i.remaining = [] ∧ i.source.ending = none := by
  obtain ⟨hheld, n, s, hn, hr⟩ := source_read_of_barren hpos h (.inl rfl)
  cases Source.served_of_read hn hr with
  | done _ hrest hending _ _ => exact ⟨by rw [remaining, hheld, hrest, List.append_nil], hending⟩

theorem length_of_readExactAfter_short {i i' : Input} {asked : Nat} {got : Array UInt8}
    (h : i.readExactAfter asked got = (.short, i')) :
    i.remaining.length < asked ∧ i.source.ending = none := by
  fun_induction readExactAfter i asked got with
  | case1 => cases h
  | case2 i asked got _ i₁ hr ih =>
    obtain ⟨hlen, hending⟩ := ih h
    rw [read_interrupted_remaining hr] at hlen
    exact ⟨hlen, (congrArg Setting.ending (hr ▸ i.setting_read asked)).symm.trans hending⟩
  | case3 => cases h
  | case4 i asked got hne i₁ hr =>
    obtain ⟨hrest, hending⟩ := remaining_of_read_nil (by omega) hr
    refine ⟨?_, hending⟩
    rw [hrest, List.length_nil]
    omega
  | case5 i asked got _ x c i₁ hr ih =>
    obtain ⟨hlen, hending⟩ := ih h
    have hle := length_read_le hr
    simp only [List.length_cons] at hle
    refine ⟨?_, (congrArg Setting.ending (hr ▸ i.setting_read asked)).symm.trans hending⟩
    rw [read_remaining hr, List.length_append, List.length_cons]
    omega

theorem length_of_readExactAfter_failed {i i' : Input} {asked : Nat} {got : Array UInt8}
    {fault : Fault} (h : i.readExactAfter asked got = (.failed fault, i')) :
    i.remaining.length < asked ∧
      ∃ last : LastingFault, i.source.ending = some last ∧ last = fault := by
  fun_induction readExactAfter i asked got with
  | case1 => cases h
  | case2 i asked got _ i₁ hr ih =>
    obtain ⟨hlen, last, hending, hlast⟩ := ih h
    rw [read_interrupted_remaining hr] at hlen
    exact ⟨hlen, last,
      (congrArg Setting.ending (hr ▸ i.setting_read asked)).symm.trans hending, hlast⟩
  | case3 i asked got hne fault' i₁ hr =>
    cases h
    obtain ⟨hrest, hending⟩ := remaining_of_read_failed (by omega) hr
    refine ⟨?_, hending⟩
    rw [hrest, List.length_nil]
    omega
  | case4 => cases h
  | case5 i asked got _ x c i₁ hr ih =>
    obtain ⟨hlen, last, hending, hlast⟩ := ih h
    have hle := length_read_le hr
    simp only [List.length_cons] at hle
    refine ⟨?_, last,
      (congrArg Setting.ending (hr ▸ i.setting_read asked)).symm.trans hending, hlast⟩
    rw [read_remaining hr, List.length_append, List.length_cons]
    omega

/-- An input that delivers `b` in the setting `σ`. -/
structure Delivers (i : Input) (b : Bytes) (σ : Setting) : Prop where
  remaining_eq : i.remaining = b
  setting_eq : i.setting = σ

theorem delivers_ofBytes (b : Bytes) : (ofBytes b).Delivers b .memory :=
  ⟨by simp [ofBytes, remaining], rfl⟩

/-- An exact read that the data can serve delivers its bytes, whatever the schedule. -/
theorem readExact_of_le {i : Input} {a rest : Bytes} {σ : Setting}
    (hi : i.Delivers (a ++ rest) σ) :
    ∃ i', i.readExact a.length = (.bytes a, i') ∧ i'.Delivers rest σ := by
  obtain ⟨hrem, hset⟩ := hi
  have hkept := i.setting_readExactAfter a.length #[]
  cases hr : i.readExact a.length with
  | mk o i' =>
    have hset' : i'.setting = σ := by
      rw [← hset, ← hkept]
      exact congrArg (·.2.setting) hr.symm
    cases o with
    | bytes b =>
      -- what was delivered is a front of what remained, of the length of `a`
      have hb : i.remaining = b ++ i'.remaining := readExact_remaining hr
      have hlen : b.length = a.length := length_readExact hr
      rw [hrem] at hb
      obtain ⟨rfl, hrest⟩ := List.append_inj hb hlen.symm
      exact ⟨i', rfl, hrest.symm, hset'⟩
    | short =>
      have hlt := (length_of_readExactAfter_short hr).1
      rw [hrem, List.length_append] at hlt
      omega
    | failed fault =>
      have hlt := (length_of_readExactAfter_failed hr).1
      rw [hrem, List.length_append] at hlt
      omega

/-- An exact read past the last byte is short, or meets the fault there. -/
theorem readExact_of_lt {i : Input} {b : Bytes} {asked : Nat} {σ : Setting}
    (hi : i.Delivers b σ) (hlt : b.length < asked) :
    ∃ i', i.readExact asked =
      (match σ.ending with | some fault => .failed fault | none => .short, i') := by
  obtain ⟨hrem, hset⟩ := hi
  have hending : i.source.ending = σ.ending := congrArg Setting.ending hset
  cases hr : i.readExact asked with
  | mk o i' =>
    refine ⟨i', ?_⟩
    cases o with
    | bytes a =>
      have hlen := length_readExact hr
      have htotal := congrArg List.length (readExact_remaining hr)
      rw [hrem, List.length_append] at htotal
      omega
    | short => rw [← hending, (length_of_readExactAfter_short hr).2]
    | failed fault =>
      obtain ⟨-, last, hlast, rfl⟩ := length_of_readExactAfter_failed hr
      rw [← hending, hlast]

/-! ## Reading ahead -/

section

variable {i : Input} {b : Bytes} {σ : Setting}

theorem delivers_of_fill {c : Bytes} {i' : Input} (hi : i.Delivers b σ)
    (h : i.fill = (.bytes c, i')) : i'.Delivers b σ := by
  have hkept := i.setting_fill
  rw [h, hi.setting_eq] at hkept
  exact ⟨(fill_remaining h).2.trans hi.remaining_eq, hkept⟩

/-- Reading ahead is interrupted, or shows some of the bytes that remain, or meets what stands behind
the last byte. -/
theorem fill_cases (hcapacity : 0 < σ.capacity) (hi : i.Delivers b σ) :
    (∃ i', i.fill = (.interrupted, i')) ∨
    (∃ x c i', i.fill = (.bytes (x :: c), i') ∧ b ≠ [] ∧ i'.Delivers b σ) ∨
    ∃ i', i.fill =
      (match σ.ending with | some fault => .failed fault | none => .bytes [], i') ∧ b = [] := by
  obtain ⟨hrem, rfl⟩ := hi
  cases hheld : i.held with
  | cons x c =>
    have hne : b ≠ [] := by rw [← hrem, remaining, hheld]; exact List.cons_ne_nil _ _
    exact .inr (.inl ⟨x, c, i, by rw [fill, hheld], hne, hrem, rfl⟩)
  | nil =>
    have hrest : i.source.rest = b := by
      rw [← hrem, remaining, hheld, List.nil_append]
    have hending : i.setting.ending = i.source.ending := rfl
    cases hr : i.source.read i.capacity with
    | mk o s =>
      have hserved := Source.served_of_read hcapacity hr
      rw [hending]
      cases o with
      | interrupted => exact .inl ⟨{ i with source := s }, by rw [fill, hheld]; simp only [hr]⟩
      | failed fault =>
        cases hserved with
        | broken _ _ hnil hend =>
          exact .inr (.inr ⟨{ i with source := s }, by rw [fill, hheld, hend]; simp only [hr],
            hrest.symm.trans hnil⟩)
      | bytes c =>
        cases hserved with
        | done _ hnil hend _ _ =>
          exact .inr (.inr ⟨{ i with held := [], source := s },
            by rw [fill, hheld, hend]; simp only [hr], hrest.symm.trans hnil⟩)
        | piece x c _ hpiece _ _ =>
          have hne : b ≠ [] := by rw [← hrest, hpiece]; exact List.cons_ne_nil _ _
          have hf : i.fill = (.bytes (x :: c), { i with held := x :: c, source := s }) := by
            rw [fill, hheld]
            simp only [hr]
          exact .inr (.inl ⟨x, c, _, hf, hne, delivers_of_fill ⟨hrem, rfl⟩ hf⟩)

theorem fill_ne_interrupted (hσ : σ.Quiet) (hi : i.Delivers b σ) {i' : Input} :
    i.fill ≠ (.interrupted, i') := by
  intro h
  obtain ⟨-, rfl⟩ := hi
  unfold fill at h
  split at h
  · cases hr : i.source.read i.capacity with
    | mk o s =>
      rw [hr] at h
      cases o with
      | interrupted => exact Source.read_ne_interrupted hσ.interruptions hr
      | failed fault => cases h
      | bytes c => cases h
  · cases h

/-- Reading ahead, where no interruption comes, shows some of the bytes that remain. -/
theorem fill_of_ne_nil (hσ : σ.Quiet) (hi : i.Delivers b σ) (hb : b ≠ []) :
    ∃ x c i', i.fill = (.bytes (x :: c), i') ∧ i'.Delivers b σ := by
  rcases fill_cases hσ.capacity_pos hi with ⟨i', hf⟩ | ⟨x, c, i', hf, -, hi'⟩ | ⟨i', -, hnil⟩
  · exact absurd hf (fill_ne_interrupted hσ hi)
  · exact ⟨x, c, i', hf, hi'⟩
  · exact absurd hnil hb

/-- At the end of the data reading ahead shows nothing, or meets the fault behind the last byte. -/
theorem fill_of_nil (hσ : σ.Quiet) (hi : i.Delivers [] σ) :
    ∃ i', i.fill =
      (match σ.ending with | some fault => .failed fault | none => .bytes [], i') := by
  rcases fill_cases hσ.capacity_pos hi with ⟨i', hf⟩ | ⟨-, -, -, -, hne, -⟩ | ⟨i', hf, -⟩
  · exact absurd hf (fill_ne_interrupted hσ hi)
  · exact absurd rfl hne
  · exact ⟨i', hf⟩

end

end Input

/-! ## Parsers -/

/-- The four bytes of a word can be any. -/
theorem exists_be32 {b : Bytes} (h : b.length = 4) : ∃ w, b = be32 w := by
  match b, h with
  | [x₀, x₁, x₂, x₃], _ =>
    have h₀ := x₀.toNat_lt
    have h₁ := x₁.toNat_lt
    have h₂ := x₂.toNat_lt
    have h₃ := x₃.toNat_lt
    refine ⟨ofBe32 [x₀, x₁, x₂, x₃], ?_⟩
    have hnat : (ofBe32 [x₀, x₁, x₂, x₃]).toNat =
        ((x₀.toNat * 256 + x₁.toNat) * 256 + x₂.toNat) * 256 + x₃.toNat := by
      simp only [ofBe32, natOfBe, List.foldl, UInt32.toNat_ofNat']
      omega
    simp only [be32, hnat, List.cons.injEq, and_true]
    refine ⟨?_, ?_, ?_, ?_⟩ <;> apply UInt8.toNat_inj.mp <;> rw [UInt8.toNat_ofNat'] <;> omega

theorem be32_injective {v w : UInt32} (h : be32 v = be32 w) : v = w := by
  rw [← ofBe32_be32 v, h, ofBe32_be32]

namespace Reader

open Input

variable {α : Type} {i : Input} {a b rest : Bytes} {σ : Setting}

/-- The result of a parser and what it leaves: a value in front of the bytes `rest`, or an error. -/
def Yields (r : Except Error α × Input) (σ : Setting) : Except Error (α × Bytes) → Prop
  | .ok (x, rest) => r.1 = .ok x ∧ r.2.Delivers rest σ
  | .error e => r.1 = .error e

theorem Yields.eq_ok {r : Except Error α × Input} {x : α} (h : Yields r σ (.ok (x, rest))) :
    ∃ i', r = (.ok x, i') ∧ i'.Delivers rest σ := ⟨r.2, Prod.ext h.1 rfl, h.2⟩

theorem eq_error_of_fst {r : Except Error α × Input} {e : Error} (h : r.1 = .error e) :
    ∃ i', r = (.error e, i') := ⟨r.2, Prod.ext h rfl⟩

theorem take_of_append (context : String) (hi : i.Delivers (a ++ rest) σ) {n : Nat}
    (hn : a.length = n) :
    ∃ i', (take context n).on i = (.ok a, i') ∧ i'.Delivers rest σ := by
  obtain ⟨i', hr, hi'⟩ := readExact_of_le hi
  exact ⟨i', by rw [on_take, ← hn, hr], hi'⟩

theorem take_of_lt (context : String) (hi : i.Delivers b σ) {n : Nat} (hn : b.length < n) :
    ∃ i', (take context n).on i = (.error (σ.cutShort .taken context), i') := by
  obtain ⟨i', hr⟩ := readExact_of_lt hi hn
  refine ⟨i', ?_⟩
  rw [on_take, hr, Setting.cutShort]
  cases σ.ending with
  | none => rfl
  | some fault => rfl

theorem skip_of_append (context : String) (hi : i.Delivers (a ++ rest) σ) {n : Nat}
    (hn : a.length = n) :
    ∃ i', (skip context n).on i = (.ok (), i') ∧ i'.Delivers rest σ := by
  obtain ⟨i', hr, hi'⟩ := readExact_of_le hi
  exact ⟨i', by rw [on_skip, ← hn, hr], hi'⟩

theorem skip_of_lt (context : String) (hi : i.Delivers b σ) {n : Nat} (hn : b.length < n) :
    ∃ i', (skip context n).on i = (.error (σ.cutShort .passedOver context), i') := by
  obtain ⟨i', hr⟩ := readExact_of_lt hi hn
  refine ⟨i', ?_⟩
  rw [on_skip, hr, Setting.cutShort]
  cases σ.ending with
  | none => rfl
  | some fault => rfl

theorem word_of_append (context : String) {w : UInt32} (hi : i.Delivers (be32 w ++ rest) σ) :
    ∃ i', (word context).on i = (.ok w, i') ∧ i'.Delivers rest σ := by
  obtain ⟨i', ht, hi'⟩ := take_of_append context hi (length_be32 w)
  refine ⟨i', ?_, hi'⟩
  rw [word, on_map, ht]
  show (Except.ok (ofBe32 (be32 w)), i') = (.ok w, i')
  rw [ofBe32_be32]

theorem word_of_lt (context : String) (hi : i.Delivers b σ) (hb : b.length < 4) :
    ∃ i', (word context).on i = (.error (σ.cutShort .taken context), i') := by
  obtain ⟨i', ht⟩ := take_of_lt context hi hb
  refine ⟨i', ?_⟩
  rw [word, on_map, ht]
  rfl

theorem on_atEnd (i : Input) :
    atEnd.on i =
      match i.fill with
      | (.bytes b, i') => (.ok b.isEmpty, i')
      | (.failed fault, i') => (.error (.io fault), i')
      | (.interrupted, i') => (.error (.io .interrupted), i') := rfl

theorem atEnd_of_ne_nil (hσ : σ.Quiet) (hi : i.Delivers b σ) (hb : b ≠ []) :
    ∃ i', atEnd.on i = (.ok false, i') ∧ i'.Delivers b σ := by
  obtain ⟨x, c, i', hf, hi'⟩ := fill_of_ne_nil hσ hi hb
  exact ⟨i', by rw [on_atEnd, hf]; rfl, hi'⟩

/-- At the end of the data the look says so, unless there is a fault behind the last byte. -/
theorem atEnd_of_nil (hσ : σ.Quiet) (hi : i.Delivers [] σ) :
    Yields (atEnd.on i) σ
      (match σ.ending with | some fault => .error (.io fault) | none => .ok (true, [])) := by
  obtain ⟨i', hf⟩ := fill_of_nil hσ hi
  cases hend : σ.ending with
  | none =>
    rw [hend] at hf
    rw [on_atEnd, hf]
    exact ⟨rfl, delivers_of_fill hi hf⟩
  | some fault =>
    rw [hend] at hf
    rw [on_atEnd, hf]
    rfl

end Reader

end RepoSeal
