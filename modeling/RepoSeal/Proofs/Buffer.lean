import RepoSeal.Envelope.Buffer
import RepoSeal.Proofs.Streams

/-!
# RepoSeal — what the second pass is handed

A held plaintext comes out of memory and scratch file in pieces that have nothing to do with those it
was written in: none of them is empty or longer than the chunk (`length_of_mem_pieces`), and their
concatenation is what is held (`flatten_pieces`). They are handed out one after the other up to the first
that is refused (`exists_handed`).

All pieces pass through one chunk, at whose front a consumer may leave anything. Every piece is put over
the whole of what is lent next, so nothing of that is seen again (`replayThrough_eq`).
-/

namespace RepoSeal.Envelope

theorem flatten_piecesOf (size : Nat) (b : Bytes) : (piecesOf size b).flatten = b := by
  fun_induction piecesOf size b with
  | case1 => rfl
  | case2 x rest ih => rw [List.flatten_cons, ih, List.cons_append, List.take_append_drop]

theorem length_of_mem_piecesOf {size : Nat} (hpos : 0 < size) {b piece : Bytes}
    (h : piece ∈ piecesOf size b) : 1 ≤ piece.length ∧ piece.length ≤ size := by
  fun_induction piecesOf size b with
  | case1 => cases h
  | case2 x rest ih =>
    rcases List.mem_cons.mp h with rfl | h
    · simp only [List.length_cons, List.length_take]
      omega
    · exact ih h

namespace PlaintextBuffer

/-! ## The pieces -/

theorem flatten_sourcePieces (s : Source) {size : Nat} (hpos : 0 < size) :
    (sourcePieces s size).flatten = s.rest := by
  fun_induction sourcePieces s size with
  | case1 s x piece s' hr ih =>
    obtain ⟨hrest, _, _⟩ := Source.readSome_cons hpos hr
    rw [List.flatten_cons, ih, hrest]
  | case2 s hr =>
    -- the other answers come when nothing is left
    have hserved := s.served_readSome hpos
    generalize s.readSome size = r at hserved hr
    cases hserved with
    | piece x b s' => exact absurd rfl (hr x b s')
    | done _ hrest => exact hrest.symm
    | broken _ _ hrest => exact hrest.symm

theorem length_of_mem_sourcePieces (s : Source) {size : Nat} (hpos : 0 < size) {piece : Bytes}
    (h : piece ∈ sourcePieces s size) : 1 ≤ piece.length ∧ piece.length ≤ size := by
  fun_induction sourcePieces s size with
  | case1 s x b s' hr ih =>
    obtain ⟨-, hlen, -⟩ := Source.readSome_cons hpos hr
    rcases List.mem_cons.mp h with rfl | h
    · exact ⟨Nat.succ_pos _, hlen⟩
    · exact ih h
  | case2 => cases h

section

variable (b : PlaintextBuffer) (schedule : Schedule) {size : Nat} (hpos : 0 < size)

include hpos

/-- The second pass hands out what is held, in order, whatever the pieces. -/
theorem flatten_pieces : (b.pieces schedule size).flatten = b.contents := by
  unfold pieces contents
  rw [List.flatten_append, flatten_piecesOf]
  cases b.scratch with
  | none => rfl
  | some file => rw [flatten_sourcePieces _ hpos, Option.getD_some]

theorem length_of_mem_pieces {piece : Bytes} (h : piece ∈ b.pieces schedule size) :
    1 ≤ piece.length ∧ piece.length ≤ size := by
  rcases List.mem_append.mp h with h | h
  · exact length_of_mem_piecesOf hpos h
  · cases hscratch : b.scratch with
    | none =>
      rw [hscratch] at h
      cases h
    | some file =>
      rw [hscratch] at h
      exact length_of_mem_sourcePieces _ hpos h

end

/-- Pieces that are added one after the other are all held. -/
theorem Holds.writeAll {b : PlaintextBuffer} {data : Bytes} (h : b.Holds data)
    (slices : List Bytes) :
    (slices.foldl PlaintextBuffer.write b).Holds (data ++ slices.flatten) ∧
      (slices.foldl PlaintextBuffer.write b).threshold = b.threshold := by
  induction slices generalizing b data with
  | nil => exact ⟨by rwa [List.flatten_nil, List.append_nil], rfl⟩
  | cons slice slices ih =>
    obtain ⟨hholds, hthreshold⟩ := ih (h.write slice)
    rw [List.flatten_cons, ← List.append_assoc]
    exact ⟨hholds, hthreshold⟩

/-! ## Handing out -/

section

variable {σ ε : Type}

/-- A consumer that keeps the pieces it is handed, in order, beside its own state. -/
def recorded (consume : σ → Bytes → Except ε Unit × σ) (st : σ × List Bytes) (piece : Bytes) :
    Except ε Unit × σ × List Bytes :=
  ((consume st.1 piece).1, (consume st.1 piece).2, st.2 ++ [piece])

variable (consume : σ → Bytes → Except ε Unit × σ)

theorem feed_cons (st : σ) (piece : Bytes) (rest : List Bytes) :
    feed consume st (piece :: rest) =
      match (consume st piece).1 with
      | .ok _ => feed consume (consume st piece).2 rest
      | .error e => (.error e, (consume st piece).2) := by
  rw [feed]
  rcases consume st piece with ⟨_ | _, st'⟩
  · rfl
  · rfl

theorem feed_append (st : σ) (front back : List Bytes) :
    feed consume st (front ++ back) =
      match feed consume st front with
      | (.ok _, st') => feed consume st' back
      | (.error e, st') => (.error e, st') := by
  induction front generalizing st with
  | nil => rfl
  | cons piece front ih =>
    rw [List.cons_append, feed_cons, feed_cons]
    cases (consume st piece).1 with
    | ok _ => exact ih _
    | error e => rfl

/-- The pieces that were handed out, and why no more of them were: there were none, or the last one
was refused. -/
inductive Handed (st : σ) : List Bytes → List Bytes → Except ε Unit × σ → Prop
  | all {handed : List Bytes} {st' : σ} (haccepted : feed consume st handed = (.ok (), st')) :
      Handed st handed [] (.ok (), st')
  | refused {front back : List Bytes} {last : Bytes} {st' st'' : σ} {e : ε}
      (haccepted : feed consume st front = (.ok (), st'))
      (hrefused : consume st' last = (.error e, st'')) :
      Handed st (front ++ [last]) back (.error e, st'')

variable {consume} in
/-- If none was refused, none is left. -/
theorem Handed.back_eq_nil {st : σ} {handed back : List Bytes} {r : Except ε Unit × σ}
    (h : Handed consume st handed back r) (hok : r.1 = .ok ()) : back = [] := by
  cases h with
  | all _ => rfl
  | refused _ _ => cases hok

/-- Pieces are handed out up to the first that is refused. -/
theorem exists_handed (st : σ) (record pieces : List Bytes) :
    ∃ handed back, pieces = handed ++ back ∧ Handed consume st handed back (feed consume st pieces) ∧
      feed (recorded consume) (st, record) pieces =
        ((feed consume st pieces).1, (feed consume st pieces).2, record ++ handed) := by
  induction pieces generalizing st record with
  | nil => exact ⟨[], [], rfl, .all rfl, by rw [List.append_nil]; rfl⟩
  | cons piece rest ih =>
    rw [feed_cons, feed_cons]
    cases hc : consume st piece with
    | mk answer st' =>
      have hstep : recorded consume (st, record) piece = (answer, st', record ++ [piece]) := by
        simp only [recorded, hc]
      rw [hstep]
      cases answer with
      | error e =>
        have hlast : Handed consume st ([] ++ [piece]) rest (.error e, st') := .refused rfl hc
        exact ⟨[piece], rest, rfl, hlast, rfl⟩
      | ok u =>
        -- the piece was accepted, so it stands in front of those that are handed out next
        obtain ⟨handed, back, hsplit, hhanded, hrecord⟩ := ih st' (record ++ [piece])
        refine ⟨piece :: handed, back, by rw [hsplit, List.cons_append], ?_, ?_⟩
        · have haccept : ∀ front, feed consume st (piece :: front) = feed consume st' front := by
            intro front
            rw [feed_cons, hc]
          dsimp only
          generalize feed consume st' rest = r at hhanded
          cases hhanded with
          | all h => exact .all ((haccept _).trans h)
          | @refused front _ last _ _ _ h hlast =>
            show Handed consume st ((piece :: front) ++ [last]) back _
            exact .refused ((haccept front).trans h) hlast
        · dsimp only
          rw [hrecord, List.append_assoc, List.singleton_append]

end

/-! ## One chunk for every piece -/

/-- A consumer that is lent the front of a chunk, and may leave other bytes there. -/
structure Borrower (σ ε : Type) where
  consume : σ → Bytes → Except ε Unit × σ
  leave : σ → Bytes → Bytes
  length_leave : ∀ st piece, (leave st piece).length = piece.length

/-- A chunk with other bytes at its front. -/
def overlay (front chunk : Bytes) : Bytes := front ++ chunk.drop front.length

theorem length_overlay {front chunk : Bytes} (h : front.length ≤ chunk.length) :
    (overlay front chunk).length = chunk.length := by
  rw [overlay, List.length_append, List.length_drop]
  omega

@[simp] theorem take_overlay (front chunk : Bytes) :
    (overlay front chunk).take front.length = front := List.take_left

section

variable {σ ε : Type} (c : Borrower σ ε)

namespace Borrower

/-- A borrower that keeps the pieces it is lent, in order, beside its own state. -/
def recorded : Borrower (σ × List Bytes) ε where
  consume := PlaintextBuffer.recorded c.consume
  leave st := c.leave st.1
  length_leave st := c.length_leave st.1

/-- Copies a piece to the front of the chunk and lends it out. -/
def lend (piece : Bytes) (st : σ) (chunk : Bytes) : Except ε Unit × σ × Bytes :=
  let filled := overlay piece chunk
  let lent := filled.take piece.length
  ((c.consume st lent).1, (c.consume st lent).2, overlay (c.leave st lent) filled)

theorem lend_eq {piece chunk : Bytes} (h : piece.length ≤ chunk.length) (st : σ) :
    ∃ chunk', chunk'.length = chunk.length ∧
      c.lend piece st chunk = ((c.consume st piece).1, (c.consume st piece).2, chunk') := by
  refine ⟨overlay (c.leave st piece) (overlay piece chunk), ?_, ?_⟩
  · rw [length_overlay, length_overlay h]
    rwa [c.length_leave, length_overlay h]
  · unfold lend
    dsimp only
    rw [take_overlay]

end Borrower

/-- Lends out pieces, each by way of the chunk, until one is refused. -/
def lendPieces : List Bytes → σ → Bytes → Except ε Unit × σ × Bytes
  | [], st, chunk => (.ok (), st, chunk)
  | piece :: rest, st, chunk =>
    match c.lend piece st chunk with
    | (.ok _, st', chunk') => lendPieces rest st' chunk'
    | (.error e, st', chunk') => (.error e, st', chunk')

/-- Lends out what is read from a source without faults, as much at a time as it delivers into the
chunk, until a piece is refused. -/
def lendSource (s : Source) (st : σ) (chunk : Bytes) : Except ε Unit × σ × Bytes :=
  match _h : s.readSome chunk.length with
  | (.ok (x :: piece), s') =>
    match c.lend (x :: piece) st chunk with
    | (.ok _, st', chunk') => lendSource s' st' chunk'
    | (.error e, st', chunk') => (.error e, st', chunk')
  | _ => (.ok (), st, chunk)
termination_by s.rest.length
decreasing_by exact Source.readSome_lt _h

/-- The second pass by way of a chunk: first the memory, in pieces as long as the chunk, and then the
scratch file, in pieces as they are read back. -/
def replayThrough (b : PlaintextBuffer) (schedule : Schedule) (st : σ) (chunk : Bytes) :
    Except ε Unit × σ × Bytes :=
  match lendPieces c (piecesOf chunk.length b.memory.toList) st chunk with
  | (.error e, st', chunk') => (.error e, st', chunk')
  | (.ok _, st', chunk') =>
    match b.scratch with
    | none => (.ok (), st', chunk')
    | some file => lendSource c { rest := file.toList, schedule } st' chunk'

/-- What was in the chunk before a piece is put there does not show. -/
theorem lendPieces_eq {pieces : List Bytes} {chunk : Bytes}
    (h : ∀ piece ∈ pieces, piece.length ≤ chunk.length) (st : σ) :
    ∃ chunk', chunk'.length = chunk.length ∧ lendPieces c pieces st chunk =
      ((feed c.consume st pieces).1, (feed c.consume st pieces).2, chunk') := by
  induction pieces generalizing st chunk with
  | nil => exact ⟨chunk, rfl, rfl⟩
  | cons piece rest ih =>
    obtain ⟨chunk₁, hlen, hlend⟩ := c.lend_eq (h piece List.mem_cons_self) st
    rw [lendPieces, hlend, feed_cons]
    cases (c.consume st piece).1 with
    | error e => exact ⟨chunk₁, hlen, rfl⟩
    | ok u =>
      have hrest : ∀ next ∈ rest, next.length ≤ chunk₁.length := fun next hnext =>
        hlen ▸ h next (List.mem_cons_of_mem _ hnext)
      obtain ⟨chunk₂, hlen', heq⟩ := ih hrest (c.consume st piece).2
      exact ⟨chunk₂, hlen'.trans hlen, heq⟩

theorem lendSource_eq (s : Source) (st : σ) {chunk : Bytes} (hpos : 0 < chunk.length) :
    ∃ chunk', chunk'.length = chunk.length ∧ lendSource c s st chunk =
      ((feed c.consume st (sourcePieces s chunk.length)).1,
        (feed c.consume st (sourcePieces s chunk.length)).2, chunk') := by
  generalize hsize : chunk.length = size at hpos
  fun_induction sourcePieces s size generalizing st chunk with
  | case1 s x piece s' hr ih =>
    obtain ⟨-, hfits, -⟩ := Source.readSome_cons hpos hr
    obtain ⟨chunk₁, hlen, hlend⟩ := c.lend_eq (hsize ▸ hfits) st
    rw [lendSource, feed_cons]
    subst hsize
    split
    · rename_i h
      cases hr.symm.trans h
      rw [hlend]
      cases (c.consume st (x :: piece)).1 with
      | error e => exact ⟨chunk₁, hlen, rfl⟩
      | ok u => exact ih _ hlen
    · rename_i h
      exact absurd hr (h x piece s')
  | case2 s hr =>
    rw [lendSource]
    subst hsize
    split
    · rename_i x piece s' h
      exact absurd h (hr x piece s')
    · exact ⟨chunk, rfl, rfl⟩

/-- The second pass by way of a chunk hands out the same pieces as the one without. -/
theorem replayThrough_eq (b : PlaintextBuffer) (schedule : Schedule) (st : σ) {chunk : Bytes}
    (hpos : 0 < chunk.length) :
    ∃ chunk', b.replayThrough c schedule st chunk =
      ((b.replay schedule chunk.length c.consume st).1,
        (b.replay schedule chunk.length c.consume st).2, chunk') := by
  have hfits : ∀ piece ∈ piecesOf chunk.length b.memory.toList, piece.length ≤ chunk.length :=
    fun piece hpiece => (length_of_mem_piecesOf hpos hpiece).2
  obtain ⟨chunk₁, hlen, heq⟩ := lendPieces_eq c hfits st
  rw [replayThrough, heq, replay, pieces, feed_append]
  rcases feed c.consume st (piecesOf chunk.length b.memory.toList) with ⟨_ | _, st₁⟩
  · exact ⟨chunk₁, rfl⟩
  · dsimp only
    cases b.scratch with
    | none => exact ⟨chunk₁, rfl⟩
    | some file =>
      obtain ⟨chunk₂, -, heq'⟩ :=
        lendSource_eq c { rest := file.toList, schedule } st₁ (hlen.symm ▸ hpos)
      rw [hlen] at heq'
      exact ⟨chunk₂, heq'⟩

end

/-- **What a buffer holds and hands out.** Whatever the slices that are added to a fresh buffer, memory
and then the scratch file hold all of them in order: memory up to the threshold, and the scratch file,
which is there only then, what is past it. A second pass through a chunk that is not empty lends out
pieces of at least one byte and at most the chunk's length, whatever the schedule of the scratch file and
whatever the consumer leaves in the chunk; together they are a front of the data, and all of it if the
pass succeeds. It fails only with the error of the consumer, on the last piece that is lent out. -/
theorem replay_afterWrites (threshold : Nat) (slices : List Bytes) :
    let b := slices.foldl PlaintextBuffer.write { threshold }
    let data := slices.flatten
    (b.memory.toList ++ (b.scratch.getD #[]).toList = data ∧
      b.memory.size = min threshold data.length ∧ (b.spilled ↔ threshold < data.length) ∧
      b.size = data.length) ∧
    ∀ (σ ε : Type) (c : Borrower σ ε) (st : σ) (schedule : Schedule) (chunk : Bytes), chunk ≠ [] →
      ∃ (result : Except ε Unit) (st' : σ) (handed back : List Bytes) (chunk' : Bytes),
        b.replayThrough c.recorded schedule (st, []) chunk = (result, (st', handed), chunk') ∧
        b.replay schedule chunk.length c.consume st = (result, st') ∧
        (∀ piece ∈ handed, 1 ≤ piece.length ∧ piece.length ≤ chunk.length) ∧
        handed.flatten ++ back.flatten = data ∧
        (result = .ok () → handed.flatten = data) ∧
        Handed c.consume st handed back (result, st') := by
  intro b data
  obtain ⟨hholds, hthreshold⟩ := (holds_empty threshold).writeAll slices
  rw [List.nil_append] at hholds
  have hmemory := hholds.size_memory
  have hspilled := hholds.spilled_iff
  rw [hthreshold] at hmemory hspilled
  refine ⟨⟨hholds.contents_eq, hmemory, hspilled, hholds.size_eq⟩, ?_⟩
  intro σ ε c st schedule chunk hchunk
  have hpos : 0 < chunk.length := List.length_pos_iff.mpr hchunk
  obtain ⟨chunk', hthrough⟩ := replayThrough_eq c.recorded b schedule (st, []) hpos
  obtain ⟨handed, back, hsplit, hhanded, hrecord⟩ :=
    exists_handed c.consume st [] (b.pieces schedule chunk.length)
  have hdata : handed.flatten ++ back.flatten = data := by
    rw [← List.flatten_append, ← hsplit, flatten_pieces b schedule hpos]
    exact hholds.contents_eq
  refine ⟨_, _, handed, back, chunk', ?_, rfl, ?_, hdata, ?_, hhanded⟩
  · rw [hthrough]
    show ((feed (PlaintextBuffer.recorded c.consume) (st, []) _).1,
      (feed (PlaintextBuffer.recorded c.consume) (st, []) _).2, chunk') = _
    rw [hrecord]
    rfl
  · intro piece hpiece
    exact length_of_mem_pieces b schedule hpos (hsplit ▸ List.mem_append_left back hpiece)
  · intro hok
    rw [← hdata, hhanded.back_eq_nil hok, List.flatten_nil, List.append_nil]

/-- A slice lies across the threshold, an empty one comes behind it, and the scratch file hands back a
byte at a time. -/
theorem replay_afterWrites_straddling :
    let slices : List Bytes := [[1], [2, 3, 4], [], [5, 6]]
    let b := slices.foldl PlaintextBuffer.write { threshold := 2 }
    let slow : Schedule := fun _ => { interruptions := 1, atMost := some 1 }
    let c : Borrower Nat String :=
      { consume := fun n _ => if n = 3 then (.error "full", n) else (.ok (), n + 1)
        leave := fun _ piece => List.replicate piece.length 0
        length_leave := fun _ _ => List.length_replicate }
    ([9, 9, 9] : Bytes) ≠ [] ∧ b.memory.size = 2 ∧ b.spilled ∧ b.size = 6 ∧
      ∃ (result : Except String Unit) (n : Nat) (handed back : List Bytes) (chunk' : Bytes),
        b.replayThrough c.recorded slow (0, []) [9, 9, 9] = (result, (n, handed), chunk') ∧
        (∀ piece ∈ handed, 1 ≤ piece.length ∧ piece.length ≤ 3) ∧
        handed.flatten ++ back.flatten = [1, 2, 3, 4, 5, 6] ∧
        Handed c.consume 0 handed back (result, n) := by
  intro slices b slow c
  have hchunk : ([9, 9, 9] : Bytes) ≠ [] := List.cons_ne_nil _ _
  obtain ⟨⟨-, hmemory, hspilled, hsize⟩, hreplay⟩ := replay_afterWrites 2 slices
  obtain ⟨result, n, handed, back, chunk', hthrough, -, hlen, hdata, -, hhanded⟩ :=
    hreplay Nat String c 0 slow [9, 9, 9] hchunk
  exact ⟨hchunk, hmemory, hspilled.mpr (by decide), hsize,
    result, n, handed, back, chunk', hthrough, hlen, hdata, hhanded⟩

end PlaintextBuffer

end RepoSeal.Envelope
