import RepoSeal.Stream.InputLemmas
import RepoSeal.Stream.Sink

/-!
# RepoSeal — tagged fields

Key files are made of fields: a word for the field's id, a word for its length, and the payload. A
zero id ends a list of fields and has neither length nor payload. Fields with an odd id must be
understood; a reader that does not know one refuses the data. Unknown fields with an even id are
passed over, unless they are longer than any writer makes one.

What a list of fields means is given by a `Layout`: for every id it knows, a rule that says which
lengths are admitted and what the payload does to what has been read so far.
-/

namespace RepoSeal

namespace Field

def endId : UInt32 := 0

/-- The greatest length of a field that is passed over. -/
def maxPassedLength : UInt32 := 1048576

/-- Whether a reader must know the field to go on. -/
def isCritical (id : UInt32) : Bool := id &&& 1 = 1

/-! ## Writing -/

def encode (id : UInt32) (payload : Bytes) : Bytes :=
  be32 id ++ be32 (.ofNat payload.length) ++ payload

def endMark : Bytes := be32 endId

/-! ## Reading -/

/-- The id and the length of the next field, or nothing at the end of the list. -/
def next (context : String) : Reader (Option (UInt32 × UInt32)) := do
  let id ← Reader.word context
  if id = endId then
    return none
  else
    let length ← Reader.word context
    return some (id, length)

def word (context : String) (length : UInt32) : Reader UInt32 :=
  if length = 4 then Reader.word context
  else Reader.fail (.malformed (.wordLength context length))

/-- The payload of a field that must have a given size. -/
def fixed (context : String) (length : UInt32) (size : Nat) : Reader Bytes :=
  if length.toNat = size then Reader.take context size
  else Reader.fail (.malformed (.fixedLength context size length))

/-- Passes over a field that the reader does not know, if that is allowed. -/
def passOver (context : String) (id length : UInt32) : Reader Unit :=
  if isCritical id then Reader.fail (.incompatible (.criticalField context id))
  else if maxPassedLength < length then
    Reader.fail (.malformed (.fieldTooLong context id length))
  else do
    Reader.note ⟨context, id, length⟩
    Reader.skip context length.toNat

end Field

/-! ## Layouts -/

structure FieldRule (σ : Type) where
  /-- The flaw of a length, or nothing for an admitted one. -/
  lengthFlaw : UInt32 → Option Malformation
  /-- What the payload does to what has been read so far. -/
  store : σ → Bytes → Except Malformation σ

structure Layout (σ : Type) where
  context : String
  /-- The rule of every known field. -/
  rule : UInt32 → Option (FieldRule σ)

namespace Layout

variable {σ : Type}

/-- Reads one field, whose id and length have been read. -/
def readField (l : Layout σ) (st : σ) (id length : UInt32) : Reader σ :=
  match l.rule id with
  | none => do
    Field.passOver l.context id length
    return st
  | some rule =>
    match rule.lengthFlaw length with
    | some flaw => Reader.fail (.malformed flaw)
    | none => do
      let payload ← Reader.take l.context length.toNat
      match rule.store st payload with
      | .ok st' => return st'
      | .error flaw => Reader.fail (.malformed flaw)

end Layout

/-! ## What remains after a field -/

namespace Field

theorem next_ok {context : String} {i i' : Input} {id length : UInt32}
    (h : (next context).on i = (.ok (some (id, length)), i')) :
    i'.remaining.length + 8 = i.remaining.length := by
  obtain ⟨a, j, ha, h⟩ := Reader.on_bind_ok h
  obtain ⟨b, hb, hl, _⟩ := Reader.word_ok ha
  split at h
  · cases h
  · obtain ⟨a', j', ha', h⟩ := Reader.on_bind_ok h
    obtain ⟨b', hb', hl', _⟩ := Reader.word_ok ha'
    cases h
    simp [hb, hb', hl, hl']
    omega

theorem next_none {context : String} {i i' : Input}
    (h : (next context).on i = (.ok none, i')) :
    i'.remaining.length + 4 = i.remaining.length := by
  obtain ⟨a, j, ha, h⟩ := Reader.on_bind_ok h
  obtain ⟨b, hb, hl, _⟩ := Reader.word_ok ha
  split at h
  · cases h
    simp [hb, hl]
    omega
  · obtain ⟨a', j', ha', h⟩ := Reader.on_bind_ok h
    cases h

theorem passOver_ok {context : String} {id length : UInt32} {i i' : Input} {u : Unit}
    (h : (passOver context id length).on i = (.ok u, i')) :
    i'.remaining.length ≤ i.remaining.length := by
  unfold passOver at h
  split at h
  · cases h
  · split at h
    · cases h
    · obtain ⟨a, j, ha, h⟩ := Reader.on_bind_ok h
      cases ha
      obtain ⟨b, hr, -⟩ := Reader.skip_ok h
      have hr : i.remaining = b ++ i'.remaining := hr
      rw [hr, List.length_append]
      omega

end Field

namespace Layout

variable {σ : Type}

theorem readField_ok {l : Layout σ} {st st' : σ} {id length : UInt32} {i i' : Input}
    (h : (l.readField st id length).on i = (.ok st', i')) :
    i'.remaining.length ≤ i.remaining.length := by
  unfold readField at h
  split at h
  · obtain ⟨a, j, ha, h⟩ := Reader.on_bind_ok h
    cases h
    exact Field.passOver_ok ha
  · split at h
    · cases h
    · obtain ⟨b, j, hb, h⟩ := Reader.on_bind_ok h
      have := (Reader.take_ok hb).1
      split at h
      · cases h
        rw [this, List.length_append]
        omega
      · cases h

/-- Reads fields up to and including the end of their list. -/
def readFields (l : Layout σ) (st : σ) (i : Input) : Except Error σ × Input :=
  match _h : (Field.next l.context).on i with
  | (.error e, i') => (.error e, i')
  | (.ok none, i') => (.ok st, i')
  | (.ok (some (id, length)), i₁) =>
    match _h' : (l.readField st id length).on i₁ with
    | (.error e, i') => (.error e, i')
    | (.ok st', i₂) => readFields l st' i₂
termination_by i.remaining.length
decreasing_by
  have := Field.next_ok _h
  have := readField_ok _h'
  omega

/-- A list of fields takes at least its end mark. -/
theorem readFields_ok {l : Layout σ} {st st' : σ} {i i' : Input}
    (h : l.readFields st i = (.ok st', i')) : i'.remaining.length + 4 ≤ i.remaining.length := by
  fun_induction readFields l st i with
  | case1 => cases h
  | case2 st i j hn =>
    cases h
    have := Field.next_none hn
    omega
  | case3 => cases h
  | case4 st i id length i₁ hn st₁ i₂ hf ih =>
    have := ih h
    have := Field.next_ok hn
    have := readField_ok hf
    omega

end Layout

end RepoSeal
