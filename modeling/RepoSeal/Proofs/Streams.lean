import RepoSeal.Error
import RepoSeal.Stream.Sink
import RepoSeal.Stream.Source

/-!
# RepoSeal — what passes through streams

A reader does not see how its source cuts the bytes: whatever the schedule, it is served a piece of
what waits, the end, or the fault that stands behind the last byte (`Served`). In the same way a sink
does not show how its bytes were cut into writes (`write_append`). So a loop that copies from one to
the other is described by two things alone: the bytes that the source delivers, and whether it then
breaks off. `Sink.deliver` and `Source.conclude` are the words for that.
-/

namespace RepoSeal

namespace Source

/-! ## Reading some bytes

`readSome` hides interruptions, so only three answers are left. The case split of every reading loop
is this classification. -/

/-- The answers to a reader that asks for at most `asked` bytes. -/
inductive Served (s : Source) (asked : Nat) : Except Fault Bytes × Source → Prop where
  | piece (x : UInt8) (b : Bytes) (s' : Source)
      (hrest : s.rest = x :: b ++ s'.rest)
      (hlen : (x :: b).length ≤ asked)
      (hending : s'.ending = s.ending) : Served s asked (.ok (x :: b), s')
  | done (s' : Source)
      (hrest : s.rest = []) (hending : s.ending = none)
      (hrest' : s'.rest = []) (hending' : s'.ending = none) : Served s asked (.ok [], s')
  | broken (fault : LastingFault) (s' : Source)
      (hrest : s.rest = []) (hending : s.ending = some fault) : Served s asked (.error fault, s')

/-- Only the waiting bytes and the ending of a source decide how a reader is served. -/
theorem Served.congr {s t : Source} {asked : Nat} {r : Except Fault Bytes × Source}
    (h : Served t asked r) (hrest : t.rest = s.rest) (hending : t.ending = s.ending) :
    Served s asked r := by
  cases h with
  | piece x b s' hr hl he => exact .piece x b s' (hrest ▸ hr) hl (he.trans hending)
  | done s' hr he hr' he' => exact .done s' (hrest ▸ hr) (hending ▸ he) hr' he'
  | broken fault s' hr he => exact .broken fault s' (hrest ▸ hr) (hending ▸ he)

theorem served_of_read {s s' : Source} {asked : Nat} {o : ReadOutcome} (hpos : 0 < asked)
    (h : s.read asked = (o, s')) :
    match o with
    | .interrupted => True
    | .failed fault => Served s asked (.error fault, s')
    | .bytes b => Served s asked (.ok b, s') := by
  unfold read at h
  dsimp only at h
  split at h
  · cases h
    trivial
  · cases hrest : s.rest with
    | nil =>
      cases hending : s.ending with
      | none =>
        simp only [hrest, hending] at h
        cases h
        exact .done _ hrest hending rfl rfl
      | some fault =>
        simp only [hrest, hending] at h
        cases h
        exact .broken fault _ hrest hending
    | cons x rest =>
      -- a byte waits, and a turn lets at least one byte through
      have hlim := (s.schedule s.turn).limit_pos hpos
      have hle := (s.schedule s.turn).limit_le asked
      obtain ⟨n, hn⟩ : ∃ n, (s.schedule s.turn).limit asked = n + 1 :=
        ⟨(s.schedule s.turn).limit asked - 1, by omega⟩
      simp only [hrest, hn, List.take_succ_cons, List.drop_succ_cons] at h
      cases h
      refine .piece x (rest.take n) _ ?_ ?_ rfl
      · rw [hrest, List.cons_append, List.take_append_drop]
      · simp only [List.length_cons, List.length_take]
        omega

theorem served_readSome (s : Source) {asked : Nat} (hpos : 0 < asked) :
    Served s asked (s.readSome asked) := by
  -- an interruption takes nothing away, so the reads after it serve the same source
  fun_induction readSome s asked with
  | case1 s s₁ hr ih =>
    obtain ⟨hrest, hending, _⟩ := read_interrupted hr
    exact ih.congr hrest hending
  | case2 s fault s₁ hr => exact served_of_read hpos hr
  | case3 s b s₁ hr => exact served_of_read hpos hr

section

variable {s s' : Source} {asked : Nat}

theorem readSome_error {fault : Fault} (hpos : 0 < asked)
    (h : s.readSome asked = (.error fault, s')) :
    s.rest = [] ∧ ∃ last : LastingFault, s.ending = some last ∧ last = fault := by
  have hserved := s.served_readSome hpos
  rw [h] at hserved
  cases hserved with
  | broken last _ hrest hending => exact ⟨hrest, last, hending, rfl⟩

theorem readSome_nil (hpos : 0 < asked) (h : s.readSome asked = (.ok [], s')) :
    s.rest = [] ∧ s.ending = none ∧ s'.rest = [] ∧ s'.ending = none := by
  have hserved := s.served_readSome hpos
  rw [h] at hserved
  cases hserved with
  | done _ hrest hending hrest' hending' => exact ⟨hrest, hending, hrest', hending'⟩

theorem readSome_cons {x : UInt8} {b : Bytes} (hpos : 0 < asked)
    (h : s.readSome asked = (.ok (x :: b), s')) :
    s.rest = x :: b ++ s'.rest ∧ (x :: b).length ≤ asked ∧ s'.ending = s.ending := by
  have hserved := s.served_readSome hpos
  rw [h] at hserved
  cases hserved with
  | piece _ _ _ hrest hlen hending => exact ⟨hrest, hlen, hending⟩

end

/-! ## Reading a front

`readUpTo` takes what waits, up to the wanted length. It meets a fault only if the data breaks off
before that length is reached. -/

/-- The answers to a reader that wants `asked` bytes. -/
inductive Fronted (s : Source) (asked : Nat) : Except Fault Bytes × Source → Prop where
  | front (s' : Source)
      (hlen : asked ≤ s.rest.length ∨ s.ending = none)
      (hrest : s'.rest = s.rest.drop asked)
      (hending : s'.ending = s.ending) : Fronted s asked (.ok (s.rest.take asked), s')
  | broken (fault : LastingFault) (s' : Source)
      (hlen : s.rest.length < asked)
      (hending : s.ending = some fault) : Fronted s asked (.error fault, s')

theorem fronted_readUpTo (s : Source) (asked : Nat) : Fronted s asked (s.readUpTo asked) := by
  fun_induction readUpTo s asked with
  | case1 s =>
    have hfront : Fronted s 0 (.ok (s.rest.take 0), s) := .front s (by simp) (by simp) rfl
    simpa using hfront
  | case2 s asked hne fault s' hr =>
    obtain ⟨hrest, last, hending, rfl⟩ := readSome_error (by omega) hr
    refine .broken last s' ?_ hending
    rw [hrest, List.length_nil]
    omega
  | case3 s asked hne s' hr =>
    obtain ⟨hrest, hending, hrest', hending'⟩ := readSome_nil (by omega) hr
    have hfront : Fronted s asked (.ok (s.rest.take asked), s') :=
      .front s' (Or.inr hending) (by simp [hrest, hrest']) (hending'.trans hending.symm)
    simpa [hrest] using hfront
  | case4 s asked hne x b s' hr fault s'' hmore ih =>
    obtain ⟨hrest, _, hending⟩ := readSome_cons (by omega) hr
    rw [hmore] at ih
    cases ih with
    | broken last _ hlen' hending' =>
      refine .broken last s'' ?_ (hending ▸ hending')
      simp only [hrest, List.length_append, List.length_cons]
      omega
  | case5 s asked hne x b s' hr more s'' hmore ih =>
    obtain ⟨hrest, hlen, hending⟩ := readSome_cons (by omega) hr
    rw [hmore] at ih
    cases ih with
    | front _ hlen' hrest' hending' =>
      -- the piece and the front of what is left are the front of the whole
      have htake : x :: b ++ s'.rest.take (asked - (b.length + 1)) = s.rest.take asked := by
        rw [hrest, List.take_append, List.take_of_length_le hlen, List.length_cons]
      have hdrop : s''.rest = s.rest.drop asked := by
        rw [hrest', hrest, List.drop_append, List.drop_eq_nil_of_le hlen, List.length_cons,
          List.nil_append]
      rw [htake]
      simp only [List.length_cons] at hlen
      refine .front s'' ?_ hdrop (hending'.trans hending)
      rcases hlen' with h | h
      · left
        simp only [hrest, List.length_append, List.length_cons]
        omega
      · exact Or.inr (hending ▸ h)

/-! ## Reading to the end -/

/-- The result of a loop that has taken in everything a source delivers: the fault that the data
breaks off with, or else `last`. -/
def conclude {α : Type} (s : Source) (last : Except Error α) : Except Error α :=
  match s.ending with
  | some fault => .error (.io fault)
  | none => last

theorem conclude_of_none {α : Type} {s : Source} (h : s.ending = none) (last : Except Error α) :
    s.conclude last = last := by
  simp [conclude, h]

theorem conclude_of_some {α : Type} {s : Source} {fault : LastingFault} (h : s.ending = some fault)
    (last : Except Error α) : s.conclude last = .error (.io fault) := by
  simp [conclude, h]

theorem conclude_congr {α : Type} {s t : Source} (h : t.ending = s.ending)
    (last : Except Error α) : t.conclude last = s.conclude last := by
  simp [conclude, h]

end Source

/-! ## Data that may break off -/

/-- A place at which a byte string breaks off, and the fault that a reader meets there. -/
structure Cut (data : Bytes) where
  offset : Nat
  offset_le : offset ≤ data.length
  fault : LastingFault

/-- What is delivered of a byte string that may break off. -/
def delivered (data : Bytes) : Option (Cut data) → Bytes
  | none => data
  | some cut => data.take cut.offset

def Source.ofCut (data : Bytes) (cut : Option (Cut data)) (schedule : Schedule) : Source :=
  { rest := delivered data cut, ending := cut.map Cut.fault, schedule }

section

variable {data : Bytes} {cut : Option (Cut data)}

theorem Source.ending_ofCut {c : Cut data} (hc : c ∈ cut) (schedule : Schedule) :
    (Source.ofCut data cut schedule).ending = some c.fault := by
  rw [Option.mem_def] at hc
  rw [hc]
  rfl

/-- A loop that reads to the end has seen all of the data, unless the data broke off. -/
theorem Source.conclude_ofCut {α : Type} (last : Bytes → Except Error α) (schedule : Schedule) :
    (Source.ofCut data cut schedule).conclude (last (delivered data cut)) =
      (Source.ofCut data cut schedule).conclude (last data) := by
  cases cut with
  | none => rfl
  | some c => rfl

end

/-! ## Writing -/

namespace Sink

theorem write_of_le {s : Sink} {b : Bytes} (h : b.length ≤ s.room b.length) :
    s.write b = (.ok (), { s with accepted := s.accepted ++ b }) := by
  unfold write
  rw [if_pos h, List.take_of_length_le h]

theorem write_of_lt {s : Sink} {b : Bytes} (h : s.room b.length < b.length) :
    s.write b =
      (.error s.refusal, { s with accepted := s.accepted ++ b.take (s.room b.length) }) := by
  unfold write
  rw [if_neg (by omega)]

@[simp] theorem write_nil (s : Sink) : s.write [] = (.ok (), s) := by
  rw [write_of_le (by simp)]
  simp

/-- Two writes, the second only if the first was taken in full, are one write of both parts. -/
theorem write_append (s : Sink) (a b : Bytes) :
    s.write (a ++ b) =
      match s.write a with
      | (.ok _, s') => s'.write b
      | (.error fault, s') => (.error fault, s') := by
  have hassoc : ∀ l : Bytes, s.accepted ++ (a ++ l) = s.accepted ++ a ++ l := by
    intro l
    apply Array.toList_inj.mp
    simp
  have hsize : (s.accepted ++ a).size = s.accepted.size + a.length := by
    rw [← Array.length_toList]
    simp
  cases hlimit : s.limit with
  | none =>
    rw [write_of_le (b := a) (by simp [room, hlimit])]
    show _ = Sink.write _ b
    rw [write_of_le (by simp [room, hlimit]), write_of_le (by simp [room, hlimit]), hassoc]
  | some k =>
    have hroom : ∀ n, s.room n = k - s.accepted.size := by
      intro n
      simp [room, hlimit]
    have hroom' : ∀ n, ({ s with accepted := s.accepted ++ a } : Sink).room n
        = k - s.accepted.size - a.length := by
      intro n
      simp only [room, hlimit, hsize]
      omega
    by_cases ha : a.length ≤ s.room a.length
    · rw [write_of_le ha]
      show _ = Sink.write _ b
      rw [hroom] at ha
      by_cases hb : b.length ≤ k - s.accepted.size - a.length
      · rw [write_of_le (by rw [hroom, List.length_append]; omega), write_of_le (by rwa [hroom']),
          hassoc]
      · rw [write_of_lt (by rw [hroom, List.length_append]; omega),
          write_of_lt (by rw [hroom']; omega), hroom, hroom', List.take_append,
          List.take_of_length_le ha, hassoc]
    · -- the first part overflows the sink, and the second one is not reached
      have hlt : s.room a.length < a.length := by omega
      rw [write_of_lt hlt]
      rw [hroom] at hlt
      rw [write_of_lt (by rw [hroom, List.length_append]; omega), hroom, hroom,
        List.take_append_of_le_length (by omega)]

/-! ## Writing to the end

`deliver` is what a loop comes to that writes piece after piece until the sink refuses one. -/

/-- Writes `b`; if the sink takes all of it, the result is `last`. -/
def deliver {α : Type} (s : Sink) (b : Bytes) (last : Except Error α) : Except Error α × Sink :=
  match s.write b with
  | (.ok _, s') => (last, s')
  | (.error fault, s') => (.error (.io fault), s')

@[simp] theorem deliver_nil {α : Type} (s : Sink) (last : Except Error α) :
    s.deliver [] last = (last, s) := by
  simp [deliver]

theorem deliver_append {α : Type} (s : Sink) (a b : Bytes) (last : Except Error α) :
    s.deliver (a ++ b) last =
      match s.write a with
      | (.ok _, s') => s'.deliver b last
      | (.error fault, s') => (.error (.io fault), s') := by
  unfold deliver
  rw [write_append]
  rcases s.write a with ⟨_ | _, s'⟩
  · rfl
  · rfl

theorem deliver_map {α β : Type} (s : Sink) (b : Bytes) (last : Except Error α) (f : α → β) :
    ((s.deliver b last).1.map f, (s.deliver b last).2) = s.deliver b (last.map f) := by
  unfold deliver
  rcases s.write b with ⟨_ | _, s'⟩
  · rfl
  · rfl

theorem deliver_unlimited {α : Type} (b : Bytes) (last : Except Error α) :
    (({} : Sink).deliver b last).1 = last ∧ (({} : Sink).deliver b last).2.bytes = b := by
  unfold deliver
  rw [write_of_le (by simp [room])]
  exact ⟨rfl, by simp [bytes]⟩

/-- A fresh sink with room for `k` bytes holds the first `k` bytes of what is delivered to it. -/
theorem deliver_fresh {α : Type} (k : Nat) (refusal : LastingFault) (b : Bytes)
    (last : Except Error α) :
    (({ limit := some k, refusal } : Sink).deliver b last).1 =
        (if b.length ≤ k then last else .error (.io refusal)) ∧
      (({ limit := some k, refusal } : Sink).deliver b last).2.bytes = b.take k := by
  have hroom : ∀ n, ({ limit := some k, refusal } : Sink).room n = k := fun n => rfl
  unfold deliver
  by_cases h : b.length ≤ k
  · rw [write_of_le (by rwa [hroom]), if_pos h, List.take_of_length_le h]
    exact ⟨rfl, by simp [bytes]⟩
  · rw [write_of_lt (by rw [hroom]; omega), if_neg h, hroom]
    exact ⟨rfl, by simp [bytes]⟩

end Sink

end RepoSeal
