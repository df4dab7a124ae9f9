import RepoSeal.Proofs.Inputs
import RepoSeal.Proofs.Keystream

/-!
# RepoSeal — calls on one cipher

A cipher is called on a buffer that it changes where it stands, or with an input and a buffer for the
output. Either call takes the whole of its input or is refused, and a refused call leaves the cipher
where it was (`Follows.on`). So any number of calls, refused ones among them, comes to one pass over
the inputs that were taken (`given_trace`): the cuts between calls cannot be seen in what they give.
-/

namespace RepoSeal.Counter

/-! ## Calls

A cipher answers with the bytes to put out. What a buffer holds after a call follows from that. -/

inductive Call
  /-- The bytes of the buffer are combined where they stand. -/
  | inPlace (buffer : Bytes)
  /-- The input is combined into a buffer that holds `output` before the call. -/
  | into (input output : Bytes)

/-- What a call leaves: its result, the buffer it was to write to, and the cipher. -/
structure Called where
  result : Except Error Unit
  buffer : Bytes
  cipher : Cipher

namespace Call

/-- The bytes that a call is to combine with the keystream. -/
def input : Call → Bytes
  | inPlace buffer => buffer
  | into input _ => input

/-- The call has as many bytes to write to as it has to combine. -/
def Matched : Call → Prop
  | inPlace _ => True
  | into input output => input.length = output.length

/-- What the buffer of a refused call holds. A buffer of the right length has taken the input over
before anything is combined. -/
def kept : Call → Bytes
  | inPlace buffer => buffer
  | into input output => if input.length = output.length then input else output

/-- What the cipher answers to a call. -/
def answer (c : Cipher) : Call → Except Error (Bytes × Cipher)
  | inPlace buffer => c.process buffer
  | into input output => c.processInto input output.length

/-- Makes a call on a cipher. -/
def on (c : Cipher) (call : Call) : Called :=
  match call.answer c with
  | .ok (out, c') => { result := .ok (), buffer := out, cipher := c' }
  | .error e => { result := .error e, buffer := call.kept, cipher := c }

theorem answer_of_matched (c : Cipher) {call : Call} (h : call.Matched) :
    call.answer c = c.process call.input := by
  cases call with
  | inPlace buffer => rfl
  | into input output => exact if_neg fun hne => hne h

/-- Without a buffer of the input's length nothing is read from the stream, nor written. -/
theorem on_into_of_ne (c : Cipher) {input output : Bytes} (h : input.length ≠ output.length) :
    (into input output).on c =
      { result := .error (.outputLength output.length input.length), buffer := output,
        cipher := c } := by
  have hanswer : (into input output).answer c =
      .error (.outputLength output.length input.length) := if_pos h
  rw [on, hanswer, kept, if_neg h]

end Call

/-! ## One call

The position never passes the capacity, which is what makes the refusal of a call the same question
as whether its bytes still fit. -/

namespace Cipher

variable {key : Aes.Key} {nonce : Nonce} {c : Cipher}

/-- The cipher stands in the keystream of a key and a nonce, within its capacity. -/
structure Within (c : Cipher) (key : Aes.Key) (nonce : Nonce) : Prop where
  follows : c.Follows key nonce
  position_le : c.position ≤ capacity

theorem within_start (key : Aes.Key) (nonce : Nonce) : (start key nonce).Within key nonce :=
  ⟨follows_start key nonce, Nat.zero_le _⟩

/-- A call takes all of its input, or it is refused and the cipher stays as it was. -/
theorem Within.on (h : c.Within key nonce) (call : Call) :
    ((call.on c).result = .ok () ∧
        (call.on c).buffer = maskFrom key nonce c.position call.input ∧
        (call.on c).cipher.Within key nonce ∧
        (call.on c).cipher.position = c.position + call.input.length) ∨
      ∃ e, (call.on c).result = .error e ∧ (call.on c).cipher = c := by
  by_cases hmatched : call.Matched
  · rw [Call.on, call.answer_of_matched c hmatched]
    cases hp : c.process call.input with
    | error e => exact Or.inr ⟨e, rfl, rfl⟩
    | ok done =>
      obtain ⟨out, c'⟩ := done
      obtain ⟨hout, hfollows, hposition, hle⟩ := h.follows.process_ok hp
      exact Or.inl ⟨rfl, hout, ⟨hfollows, hle h.position_le⟩, hposition⟩
  · cases call with
    | inPlace buffer => exact absurd trivial hmatched
    | into input output =>
      rw [Call.on_into_of_ne c hmatched]
      exact Or.inr ⟨_, rfl, rfl⟩

/-- A call with enough room to write to is taken as long as the stream does not grow too long. -/
theorem on_ok {call : Call} (hmatched : call.Matched)
    (hfit : c.position + call.input.length ≤ capacity) : (call.on c).result = .ok () := by
  rw [Call.on, call.answer_of_matched c hmatched]
  cases hp : c.process call.input with
  | ok done => rfl
  | error e =>
    have := (process_error hp).2
    omega

/-- What it takes for a call to be taken. -/
theorem Within.on_ok_iff (h : c.Within key nonce) (call : Call) :
    (call.on c).result = .ok () ↔ call.Matched ∧ c.position + call.input.length ≤ capacity := by
  refine ⟨fun hok => ⟨?_, ?_⟩, fun ⟨hmatched, hfit⟩ => on_ok hmatched hfit⟩
  · cases call with
    | inPlace buffer => trivial
    | into input output =>
      by_cases hsame : input.length = output.length
      · exact hsame
      · rw [Call.on_into_of_ne c hsame] at hok
        cases hok
  · rcases h.on call with ⟨-, -, hwithin, hposition⟩ | ⟨e, herror, -⟩
    · exact hposition ▸ hwithin.position_le
    · cases hok.symm.trans herror

end Cipher

/-! ## Calls one after the other -/

/-- What each of some calls on one cipher leaves. -/
def trace (c : Cipher) : List Call → List (Call × Called)
  | [] => []
  | call :: later => (call, call.on c) :: trace (call.on c).cipher later

/-- The cipher after some calls. -/
def after (c : Cipher) (calls : List Call) : Cipher :=
  calls.foldl (fun c call => (call.on c).cipher) c

/-- The inputs of the calls that were not refused. -/
def taken (steps : List (Call × Called)) : Bytes :=
  steps.flatMap fun (call, called) =>
    match called.result with
    | .ok _ => call.input
    | .error _ => []

/-- What the calls that were not refused leave in their buffers. -/
def given (steps : List (Call × Called)) : Bytes :=
  steps.flatMap fun (_, called) =>
    match called.result with
    | .ok _ => called.buffer
    | .error _ => []

section

variable {call : Call} {called : Called} {steps : List (Call × Called)}

theorem taken_cons_ok (h : called.result = .ok ()) :
    taken ((call, called) :: steps) = call.input ++ taken steps := by
  simp [taken, h]

theorem taken_cons_error {e : Error} (h : called.result = .error e) :
    taken ((call, called) :: steps) = taken steps := by
  simp [taken, h]

theorem given_cons_ok (h : called.result = .ok ()) :
    given ((call, called) :: steps) = called.buffer ++ given steps := by
  simp [given, h]

theorem given_cons_error {e : Error} (h : called.result = .error e) :
    given ((call, called) :: steps) = given steps := by
  simp [given, h]

@[simp] theorem taken_append (a b : List (Call × Called)) : taken (a ++ b) = taken a ++ taken b :=
  List.flatMap_append

@[simp] theorem given_append (a b : List (Call × Called)) : given (a ++ b) = given a ++ given b :=
  List.flatMap_append

end

theorem after_append (c : Cipher) (before later : List Call) :
    after c (before ++ later) = after (after c before) later :=
  List.foldl_append

theorem trace_append (c : Cipher) (before later : List Call) :
    trace c (before ++ later) = trace c before ++ trace (after c before) later := by
  induction before generalizing c with
  | nil => rfl
  | cons call before ih => exact congrArg _ (ih _)

variable {key : Aes.Key} {nonce : Nonce} {c : Cipher}

/-- Some calls come to one pass over the inputs that were taken. -/
theorem given_trace (h : c.Within key nonce) (calls : List Call) :
    given (trace c calls) = maskFrom key nonce c.position (taken (trace c calls)) ∧
      (after c calls).Within key nonce ∧
      (after c calls).position = c.position + (taken (trace c calls)).length := by
  induction calls generalizing c with
  | nil => exact ⟨rfl, h, rfl⟩
  | cons call later ih =>
    rcases h.on call with ⟨hok, hbuffer, hwithin, hposition⟩ | ⟨e, herror, hsame⟩
    · obtain ⟨hgiven, hwithin', hposition'⟩ := ih hwithin
      rw [trace, taken_cons_ok hok, given_cons_ok hok]
      refine ⟨?_, hwithin', ?_⟩
      · rw [maskFrom_append, hbuffer, hgiven, hposition]
      · show (after (call.on c).cipher later).position = _
        rw [hposition', hposition, List.length_append, Nat.add_assoc]
    · -- a refused call has no part in the stream
      obtain ⟨hgiven, hwithin', hposition'⟩ := ih h
      rw [trace, taken_cons_error herror, given_cons_error herror, hsame]
      refine ⟨hgiven, ?_, ?_⟩
      · show (after (call.on c).cipher later).Within key nonce
        rwa [hsame]
      · show (after (call.on c).cipher later).position = _
        rwa [hsame]

/-- Calls whose inputs fit, each with enough room to write to, are all taken. -/
theorem taken_trace (h : c.Within key nonce) {calls : List Call}
    (hmatched : ∀ call ∈ calls, call.Matched)
    (hfit : c.position + (calls.flatMap Call.input).length ≤ capacity) :
    (∀ step ∈ trace c calls, step.2.result = .ok ()) ∧
      taken (trace c calls) = calls.flatMap Call.input := by
  induction calls generalizing c with
  | nil => exact ⟨fun step hstep => absurd hstep List.not_mem_nil, rfl⟩
  | cons call later ih =>
    rw [List.flatMap_cons, List.length_append] at hfit
    have hok : (call.on c).result = .ok () :=
      Cipher.on_ok (hmatched call List.mem_cons_self) (by omega)
    rcases h.on call with ⟨_, _, hwithin, hposition⟩ | ⟨e, herror, _⟩
    · obtain ⟨hall, htaken⟩ := ih hwithin (fun call hcall => hmatched call (.tail _ hcall))
        (by rw [hposition]; omega)
      rw [trace, taken_cons_ok hok, htaken, List.flatMap_cons]
      refine ⟨fun step hstep => ?_, rfl⟩
      rcases List.mem_cons.mp hstep with rfl | hlater
      · exact hok
      · exact hall step hlater
    · rw [hok] at herror
      cases herror

/-! ## Positions -/

theorem getElem?_maskFrom (position : Nat) (data : Bytes) (p : Nat) :
    (maskFrom key nonce position data)[p]? =
      data[p]?.map (· ^^^ keystreamByte key nonce (position + p)) := by
  induction data generalizing position p with
  | nil => rfl
  | cons x rest ih =>
    cases p with
    | zero => rfl
    | succ p =>
      rw [maskFrom, List.getElem?_cons_succ, List.getElem?_cons_succ, ih,
        show position + 1 + p = position + (p + 1) by omega]

/-- Within the capacity no counter value comes round again. -/
theorem counterBlock_injective {i j : Nat} (hi : i < UInt32.size) (hj : j < UInt32.size)
    (h : counterBlock nonce i = counterBlock nonce j) : i = j := by
  have htail : be32 (.ofNat i) = be32 (.ofNat j) :=
    List.append_cancel_left (congrArg Octets.toList h)
  have hword : (UInt32.ofNat i).toNat = (UInt32.ofNat j).toNat :=
    congrArg UInt32.toNat (be32_injective htail)
  rwa [UInt32.toNat_ofNat_of_lt' hi, UInt32.toNat_ofNat_of_lt' hj] at hword

/-- **Any calls on one cipher follow one keystream.** What the taken inputs are combined with at a
place of the stream is told by the place alone: a byte of the encrypted counter block of its sixteen
bytes, and no two such groups share a counter block. The position counts the bytes taken. The next call
is taken if its buffer has the length of its input and the stream does not grow too long; with another
length it is refused and might as well not have been made. A second cipher restores the inputs, however
its calls cut the stream. -/
theorem calls_follow_keystream (key : Aes.Key) (nonce : Nonce) (calls : List Call) :
    let start := Cipher.start key nonce
    let done := trace start calls
    ((given done).length = (taken done).length ∧
      ∀ p x, (taken done)[p]? = some x →
        (given done)[p]? = some
          (x ^^^ (Aes.encrypt key (counterBlock nonce (p / 16))).toList.getD (p % 16) 0)) ∧
    ((after start calls).position = (taken done).length ∧ (taken done).length ≤ capacity) ∧
    (∀ call : Call, (call.on (after start calls)).result = .ok () ↔
      call.Matched ∧ (taken done).length + call.input.length ≤ capacity) ∧
    (∀ before input output later, calls = before ++ .into input output :: later →
      input.length ≠ output.length →
      let called : Called :=
        { result := .error (.outputLength output.length input.length), buffer := output,
          cipher := after start before }
      done = trace start before ++ (.into input output, called) :: trace (after start before) later ∧
        trace start (before ++ later) = trace start before ++ trace (after start before) later ∧
        taken done = taken (trace start (before ++ later)) ∧
        given done = given (trace start (before ++ later)) ∧
        after start calls = after start (before ++ later)) ∧
    (∀ p < (taken done).length, ∀ q < (taken done).length, p / 16 ≠ q / 16 →
      counterBlock nonce (p / 16) ≠ counterBlock nonce (q / 16)) ∧
    (∀ again : List Call, (∀ call ∈ again, call.Matched) →
      again.flatMap Call.input = given done →
        (∀ step ∈ trace start again, step.2.result = .ok ()) ∧
          given (trace start again) = taken done) := by
  intro start done
  obtain ⟨hgiven, hwithin, hposition⟩ := given_trace (Cipher.within_start key nonce) calls
  have hzero : start.position = 0 := rfl
  rw [hzero, Nat.zero_add] at hposition
  rw [hzero] at hgiven
  have hle : (taken done).length ≤ capacity := hposition ▸ hwithin.position_le
  have hlen : (given done).length = (taken done).length := by rw [hgiven, length_maskFrom]
  refine ⟨⟨hlen, fun p x hp => ?_⟩, ⟨hposition, hle⟩, fun call => hposition ▸ hwithin.on_ok_iff call,
    fun before input output later hcalls hne => ?_, fun p hp q hq hne heq => ?_,
    fun again hmatched hagain => ?_⟩
  · rw [hgiven, getElem?_maskFrom, hp, Option.map_some, Nat.zero_add, keystreamByte]
  · intro called
    have hon : (Call.into input output).on (after start before) = called :=
      Call.on_into_of_ne _ hne
    have hdone : done =
        trace start before ++ (.into input output, called) :: trace (after start before) later := by
      show trace start calls = _
      rw [hcalls, trace_append, trace, hon]
    have hwithout := trace_append start before later
    refine ⟨hdone, hwithout, ?_, ?_, ?_⟩
    · rw [hdone, hwithout, taken_append, taken_append, taken_cons_error rfl]
    · rw [hdone, hwithout, given_append, given_append, given_cons_error rfl]
    · rw [hcalls, after_append, after_append]
      show after ((Call.into input output).on (after start before)).cipher later = _
      rw [hon]
  · -- a place within the capacity has a counter value that fits its four bytes
    have hfit : ∀ p < (taken done).length, p / 16 < UInt32.size := by
      intro p hp
      rw [capacity] at hle
      omega
    exact hne (counterBlock_injective (hfit p hp) (hfit q hq) heq)
  · obtain ⟨hall, htaken⟩ := taken_trace (Cipher.within_start key nonce) hmatched
      (by rw [hagain, hlen]; exact (Nat.zero_add _).symm ▸ hle)
    refine ⟨hall, ?_⟩
    obtain ⟨hagiven, _, _⟩ := given_trace (Cipher.within_start key nonce) again
    rw [hagiven, htaken, hagain, hgiven]
    exact maskFrom_maskFrom key nonce 0 (taken done)

example (key : Aes.Key) (nonce : Nonce) :
    taken (trace (.start key nonce) [.inPlace [1, 2], .into [3] [], .into [4, 5] [0, 0]]) =
      [1, 2, 4, 5] := by
  rfl

end RepoSeal.Counter
