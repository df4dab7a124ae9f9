import RepoSeal.Stream.Input

/-!
# RepoSeal — what reading does to an input

Each operation of an input is described by what it does to the bytes that remain: an exact read takes
its bytes off their front, and reading ahead changes nothing.
-/

namespace RepoSeal

namespace Input

/-- Reading ahead shows a part of what remains and takes nothing. -/
theorem fill_remaining {i i' : Input} {b : Bytes} (h : i.fill = (.bytes b, i')) :
    i'.held = b ∧ i'.remaining = i.remaining := by
  unfold fill at h
  split at h
  · rename_i hheld
    generalize hr : i.source.read i.capacity = r at h
    obtain ⟨o, s⟩ := r
    cases o <;> cases h
    refine ⟨rfl, ?_⟩
    simp [remaining, hheld, (Source.read_bytes hr).1]
  · cases h
    exact ⟨rfl, rfl⟩

/-- A read takes what it delivers off the front of what remains. -/
theorem read_remaining {i i' : Input} {asked : Nat} {b : Bytes}
    (h : i.read asked = (.bytes b, i')) : i.remaining = b ++ i'.remaining := by
  unfold read at h
  split at h
  · rename_i hc
    have hheld : i.held = [] := by
      have := (Bool.and_eq_true _ _ ▸ hc).1
      simpa using this
    generalize hr : i.source.read asked = r at h
    obtain ⟨o, s⟩ := r
    cases h
    simp [remaining, hheld, (Source.read_bytes hr).1]
  · generalize hf : i.fill = r at h
    obtain ⟨o, j⟩ := r
    cases o <;> cases h
    rename_i c
    obtain ⟨hc, hr⟩ := fill_remaining hf
    rw [← hr]
    simp [remaining, hc, ← List.append_assoc]

/-- An interruption leaves what remains as it is. -/
theorem read_interrupted_remaining {i i' : Input} {asked : Nat}
    (h : i.read asked = (.interrupted, i')) : i'.remaining = i.remaining := by
  unfold read at h
  split at h
  · generalize hr : i.source.read asked = r at h
    obtain ⟨o, s⟩ := r
    cases h
    simp [remaining, (Source.read_interrupted hr).1]
  · generalize hf : i.fill = r at h
    obtain ⟨o, j⟩ := r
    cases o <;> cases h
    unfold fill at hf
    split at hf
    · generalize hr : i.source.read i.capacity = r at hf
      obtain ⟨o, s⟩ := r
      cases o <;> cases hf
      simp [remaining, (Source.read_interrupted hr).1]
    · cases hf

theorem readExactAfter_remaining {i i' : Input} {asked : Nat} {got : Array UInt8} {b : Bytes}
    (h : i.readExactAfter asked got = (.bytes b, i')) :
    ∃ more, b = got.toList ++ more ∧ i.remaining = more ++ i'.remaining := by
  fun_induction readExactAfter i asked got with
  | case1 i got => cases h; exact ⟨[], by simp, rfl⟩
  | case2 i asked got _ i₁ hr ih =>
    obtain ⟨more, hb, hi⟩ := ih h
    exact ⟨more, hb, read_interrupted_remaining hr ▸ hi⟩
  | case3 => cases h
  | case4 => cases h
  | case5 i asked got _ x c i₁ hr ih =>
    obtain ⟨more, hb, hi⟩ := ih h
    refine ⟨x :: c ++ more, ?_, ?_⟩
    · simpa using hb
    · rw [read_remaining hr, hi, List.append_assoc]

/-- An exact read takes what it delivers off the front of what remains. -/
theorem readExact_remaining {i i' : Input} {asked : Nat} {b : Bytes}
    (h : i.readExact asked = (.bytes b, i')) : i.remaining = b ++ i'.remaining := by
  obtain ⟨more, hb, hi⟩ := readExactAfter_remaining h
  simp at hb
  rw [hb, hi]

/-- Bytes asked for one after the other are delivered no faster than asked. -/
theorem length_read_le {i i' : Input} {asked : Nat} {b : Bytes}
    (h : i.read asked = (.bytes b, i')) : b.length ≤ asked := by
  unfold read at h
  split at h
  · generalize hr : i.source.read asked = r at h
    obtain ⟨o, s⟩ := r
    cases h
    unfold Source.read at hr
    dsimp only at hr
    split at hr
    · cases hr
    · split at hr <;> cases hr
      · simp
      · simp only [List.length_take]
        have := Turn.limit_le (i.source.schedule i.source.turn) asked
        omega
  · generalize hf : i.fill = r at h
    obtain ⟨o, j⟩ := r
    cases o <;> cases h
    simp only [List.length_take]
    omega

theorem length_readExactAfter {i i' : Input} {asked : Nat} {got : Array UInt8} {b : Bytes}
    (h : i.readExactAfter asked got = (.bytes b, i')) : b.length = got.size + asked := by
  fun_induction readExactAfter i asked got with
  | case1 i got => cases h; simp
  | case2 i asked got _ i₁ hr ih => exact ih h
  | case3 => cases h
  | case4 => cases h
  | case5 i asked got _ x c i₁ hr ih =>
    have hle := length_read_le hr
    have hlen := ih h
    have hsize : (got ++ (x :: c)).size = got.size + (c.length + 1) := by
      rw [← Array.length_toList, Array.toList_appendList]
      simp
    rw [hsize] at hlen
    simp only [List.length_cons] at hle
    omega

/-- An exact read delivers as many bytes as were asked for. -/
theorem length_readExact {i i' : Input} {asked : Nat} {b : Bytes}
    (h : i.readExact asked = (.bytes b, i')) : b.length = asked := by
  simpa using length_readExactAfter h

end Input

namespace Reader

variable {α β : Type}

/-! ## Running a parser -/

@[simp] theorem on_pure (a : α) (i : Input) : (pure a : Reader α).on i = (.ok a, i) := rfl

@[simp] theorem on_fail (e : Error) (i : Input) : (fail e : Reader α).on i = (.error e, i) := rfl

theorem on_bind (p : Reader α) (f : α → Reader β) (i : Input) :
    (p >>= f).on i =
      match p.on i with
      | (.ok a, i') => (f a).on i'
      | (.error e, i') => (.error e, i') := by
  simp only [on, ExceptT.run_bind, StateT.run_bind]
  rcases (ExceptT.run p).run i with ⟨_ | _, _⟩ <;> rfl

theorem on_map (f : α → β) (p : Reader α) (i : Input) :
    (f <$> p).on i = (f <$> (p.on i).1, (p.on i).2) := by
  simp only [on, ExceptT.run_map, StateT.run_map]
  rfl

@[simp] theorem on_note (f : PassedField) (i : Input) :
    (note f).on i = (.ok (), { i with passed := f :: i.passed }) := rfl

/-- A sequence of two parsers succeeds when both do, one after the other. -/
theorem on_bind_ok {p : Reader α} {f : α → Reader β} {i i' : Input} {b : β}
    (h : (p >>= f).on i = (.ok b, i')) :
    ∃ a j, p.on i = (.ok a, j) ∧ (f a).on j = (.ok b, i') := by
  rw [on_bind] at h
  split at h
  · rename_i a j hp
    exact ⟨a, j, hp, h⟩
  · cases h

/-! ## What remains -/

theorem on_take (context : String) (asked : Nat) (i : Input) :
    (take context asked).on i =
      match i.readExact asked with
      | (.bytes b, i') => (.ok b, i')
      | (.short, i') => (.error (.malformed (.truncated context)), i')
      | (.failed fault, i') => (.error (shortfall context fault), i') := rfl

theorem on_skip (context : String) (asked : Nat) (i : Input) :
    (skip context asked).on i =
      match i.readExact asked with
      | (.bytes _, i') => (.ok (), i')
      | (.short, i') => (.error (.malformed (.truncated context)), i')
      | (.failed fault, i') => (.error (.io fault), i') := rfl

/-- Taking bytes takes them off the front of what remains. -/
theorem take_ok {context : String} {asked : Nat} {i i' : Input} {b : Bytes}
    (h : (take context asked).on i = (.ok b, i')) :
    i.remaining = b ++ i'.remaining ∧ b.length = asked := by
  rw [on_take] at h
  split at h
  · rename_i hr
    cases h
    exact ⟨Input.readExact_remaining hr, Input.length_readExact hr⟩
  · cases h
  · cases h

/-- Passing over bytes leaves what is behind them. -/
theorem skip_ok {context : String} {asked : Nat} {i i' : Input} {u : Unit}
    (h : (skip context asked).on i = (.ok u, i')) :
    ∃ b, i.remaining = b ++ i'.remaining ∧ b.length = asked := by
  rw [on_skip] at h
  split at h
  · rename_i b _ hr
    cases h
    exact ⟨b, Input.readExact_remaining hr, Input.length_readExact hr⟩
  · cases h
  · cases h

theorem word_ok {context : String} {i i' : Input} {w : UInt32}
    (h : (word context).on i = (.ok w, i')) :
    ∃ b, i.remaining = b ++ i'.remaining ∧ b.length = 4 ∧ w = ofBe32 b := by
  rw [word, on_map] at h
  generalize hr : (take context 4).on i = r at h
  obtain ⟨o, j⟩ := r
  cases o with
  | error e => cases h
  | ok b =>
    cases h
    obtain ⟨h₁, h₂⟩ := take_ok hr
    exact ⟨b, h₁, h₂, rfl⟩

/-- Looking for the end takes nothing. -/
theorem atEnd_ok {i i' : Input} {b : Bool} (h : atEnd.on i = (.ok b, i')) :
    i'.remaining = i.remaining := by
  simp only [on, atEnd, ExceptT.run_mk, StateT.run] at h
  split at h
  · rename_i hf
    cases h
    exact (Input.fill_remaining hf).2
  · cases h
  · cases h

end Reader

end RepoSeal
