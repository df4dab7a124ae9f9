import RepoSeal.Toml.Document

/-!
# RepoSeal — no integer of a document is too great

The format has integers of sixty-four bits. A reader refuses a greater one wherever it stands, and
nothing is computed from integers afterwards, so the table that a document means holds none either
(`fit_of_parse`). The predicate follows values through the readers first, one lemma for each of them,
and then through the statements that fill a table.
-/

namespace RepoSeal.Toml

/-- That no integer in a value is greater than the format allows. -/
inductive Value.Fits : Value → Prop
  | text {s : String} : Fits (.text s)
  | integer {n : Int} (h : n ≤ maxInteger) : Fits (.integer n)
  | float {written : List Char} : Fits (.float written)
  | boolean {b : Bool} : Fits (.boolean b)
  | moment {written : List Char} : Fits (.moment written)
  | array {items : List Value} (h : ∀ v ∈ items, Fits v) : Fits (.array items)
  | table {kind : TableKind} {es : Entries} (h : ∀ e ∈ es, Fits e.2) : Fits (.table kind es)
  | tables {rows : List Entries} (h : ∀ row ∈ rows, ∀ e ∈ row, Fits e.2) : Fits (.tables rows)

def Entries.Fit (es : Entries) : Prop := ∀ e ∈ es, e.2.Fits

/-! ## Tables -/

/-- What every step of a fold keeps, the whole fold keeps. -/
theorem foldlM_induction {α β : Type} {P : β → Prop} {f : β → α → Option β} {xs : List α}
    (hf : ∀ x ∈ xs, ∀ ⦃b b'⦄, P b → f b x = some b' → P b') {b b' : β} (hb : P b)
    (h : xs.foldlM f b = some b') : P b' := by
  induction xs generalizing b with
  | nil =>
    cases h
    exact hb
  | cons x xs ih =>
    obtain ⟨hx, hxs⟩ := List.forall_mem_cons.1 hf
    rw [List.foldlM_cons] at h
    obtain ⟨b₁, hb₁, h⟩ := Option.bind_eq_some_iff.1 h
    exact ih hxs (hx hb hb₁) h

namespace Entries

variable {es es' : Entries} {key : String} {v : Value}

theorem fit_nil : Fit [] := by
  intro e he
  cases he

theorem Fit.concat (h : Fit es) (hv : v.Fits) (key : String) : Fit (es ++ [(key, v)]) := by
  intro e he
  obtain he | he := List.mem_append.1 he
  · exact h e he
  · rw [List.mem_singleton.1 he]
    exact hv

theorem Fit.replace (h : Fit es) (hv : v.Fits) (key : String) : Fit (es.replace key v) := by
  intro e he
  obtain ⟨e', he', rfl⟩ := List.mem_map.1 he
  split
  · exact hv
  · exact h e' he'

theorem Fit.of_lookup (h : Fit es) (hv : es.lookup key = some v) : v.Fits := by
  obtain ⟨front, back, rfl, -⟩ := List.lookup_eq_some_iff.1 hv
  exact h (key, v) (by simp)

/-- That a change of a table brings no greater integers into it. -/
def Keeps (f : Entries → Option Entries) : Prop := ∀ ⦃es es'⦄, Fit es → f es = some es' → Fit es'

theorem Keeps.inLast {f : Entries → Option Entries} (hf : Keeps f) {rows rows' : List Entries}
    (hrows : ∀ row ∈ rows, Fit row) (h : inLast f rows = some rows') : ∀ row ∈ rows', Fit row := by
  induction rows generalizing rows' with
  | nil => cases h
  | cons row rows ih =>
    obtain ⟨hrow, hmore⟩ := List.forall_mem_cons.1 hrows
    cases rows with
    | nil =>
      obtain ⟨row', hrow', rfl⟩ := Option.map_eq_some_iff.1 h
      exact List.forall_mem_singleton.2 (hf hrow hrow')
    | cons row₁ rows =>
      obtain ⟨rows₁, hrows₁, rfl⟩ := Option.map_eq_some_iff.1 h
      exact List.forall_mem_cons.2 ⟨hrow, ih hmore hrows₁⟩

theorem keeps_add (hv : v.Fits) (key : String) : Keeps (add key v) := by
  intro es es' hes h
  unfold add at h
  split at h
  · cases h
  · cases h
    exact hes.concat hv key

theorem keeps_assign (path : List String) (hv : v.Fits) (key : String) :
    Keeps (assign path key v) := by
  induction path with
  | nil => exact keeps_add hv key
  | cons name path ih =>
    intro es es' hes h
    rw [assign] at h
    split at h
    · obtain ⟨inner, hinner, rfl⟩ := Option.map_eq_some_iff.1 h
      exact hes.concat (.table (ih fit_nil hinner)) name
    · next inner hlookup =>
      obtain ⟨inner', hinner, rfl⟩ := Option.map_eq_some_iff.1 h
      cases hes.of_lookup hlookup with
      | table hin => exact hes.replace (.table (ih hin hinner)) name
    · next inner hlookup =>
      split at h
      · cases h
      · obtain ⟨inner', hinner, rfl⟩ := Option.map_eq_some_iff.1 h
        cases hes.of_lookup hlookup with
        | table hin => exact hes.replace (.table (ih hin hinner)) name
    · next rows hlookup =>
      split at h
      · cases h
      · obtain ⟨rows', hrows', rfl⟩ := Option.map_eq_some_iff.1 h
        cases hes.of_lookup hlookup with
        | tables hin => exact hes.replace (.tables (ih.inLast hin hrows')) name
    · cases h

theorem Keeps.within {f : Entries → Option Entries} (hf : Keeps f) (path : List String) :
    Keeps (within path f) := by
  induction path with
  | nil => exact hf
  | cons name path ih =>
    intro es es' hes h
    rw [Entries.within] at h
    split at h
    · obtain ⟨inner, hinner, rfl⟩ := Option.map_eq_some_iff.1 h
      exact hes.concat (.table (ih fit_nil hinner)) name
    · next kind inner hlookup =>
      split at h
      · cases h
      · obtain ⟨inner', hinner, rfl⟩ := Option.map_eq_some_iff.1 h
        cases hes.of_lookup hlookup with
        | table hin => exact hes.replace (.table (ih hin hinner)) name
    · next rows hlookup =>
      obtain ⟨rows', hrows', rfl⟩ := Option.map_eq_some_iff.1 h
      cases hes.of_lookup hlookup with
      | tables hin => exact hes.replace (.tables (ih.inLast hin hrows')) name
    · cases h

theorem keeps_openTable (key : String) : Keeps (openTable key) := by
  intro es es' hes h
  unfold openTable at h
  split at h
  · cases h
    exact hes.concat (.table fit_nil) key
  · next inner hlookup =>
    cases h
    cases hes.of_lookup hlookup with
    | table hin => exact hes.replace (.table hin) key
  · cases h

theorem keeps_openRow (key : String) : Keeps (openRow key) := by
  intro es es' hes h
  have hempty : ∀ row ∈ [([] : Entries)], Fit row := List.forall_mem_singleton.2 fit_nil
  unfold openRow at h
  split at h
  · cases h
    exact hes.concat (.tables hempty) key
  · next rows hlookup =>
    cases h
    cases hes.of_lookup hlookup with
    | tables hin => exact hes.replace (.tables (List.forall_mem_append.2 ⟨hin, hempty⟩)) key
  · cases h

end Entries

/-! ## Readers -/

variable {cs rest : List Char} {v : Value}

theorem le_of_checked {m : Nat} {n : Int}
    (h : (if m ≤ maxInteger then some (m : Int) else none) = some n) : n ≤ maxInteger := by
  split at h
  · cases h
    omega
  · cases h

theorem unsigned?_le {base : Nat} {isDigit : Char → Bool} {n : Int}
    (h : unsigned? base isDigit cs = some n) : n ≤ maxInteger := by
  obtain ⟨digits, -, h⟩ := Option.bind_eq_some_iff.1 h
  exact le_of_checked h

theorem positive_le {n : Int} (h : integer?.positive cs = some n) : n ≤ maxInteger := by
  obtain ⟨digits, -, h⟩ := Option.bind_eq_some_iff.1 h
  exact le_of_checked h

theorem integer?_le {n : Int} (h : integer? cs = some n) : n ≤ maxInteger := by
  unfold integer? at h
  split at h
  · exact unsigned?_le h
  · exact unsigned?_le h
  · exact unsigned?_le h
  · obtain ⟨digits, -, h⟩ := Option.bind_eq_some_iff.1 h
    dsimp only at h
    split at h
    · cases h
      omega
    · cases h
  · exact positive_le h
  · exact positive_le h

theorem fits_of_ofWord? (h : ofWord? cs = some v) : v.Fits := by
  unfold ofWord? at h
  split at h
  · cases h
    exact .boolean
  split at h
  · cases h
    exact .boolean
  split at h
  · next hn =>
    cases h
    exact .integer (integer?_le hn)
  split at h
  · cases h
    exact .float
  split at h
  · cases h
    exact .moment
  · cases h

theorem fits_of_readScalar (h : readScalar cs = some (v, rest)) : v.Fits := by
  unfold readScalar at h
  dsimp only at h
  split at h
  · split at h
    · cases h
      exact .moment
    · cases h
  · obtain ⟨w, hw, h⟩ := Option.map_eq_some_iff.1 h
    cases h
    exact fits_of_ofWord? hw

/-- That a reader of values finds no greater integers. -/
def Finds (read : List Char → Option (Value × List Char)) : Prop :=
  ∀ ⦃cs v rest⦄, read cs = some (v, rest) → v.Fits

variable {read : List Char → Option (Value × List Char)} (hread : Finds read)

include hread

theorem Finds.readItems {vs : List Value} (h : readItems read cs = some (vs, rest)) :
    ∀ v ∈ vs, v.Fits := by
  fun_induction Toml.readItems read cs generalizing vs rest with
  | case1 =>
    cases h
    exact List.forall_mem_nil _
  | case3 _ v _ _ _ _ hv =>
    cases h
    exact List.forall_mem_singleton.2 (hread hv)
  | case4 _ v _ _ _ _ _ hv ih =>
    obtain ⟨p, hmore, hp⟩ := Option.map_eq_some_iff.1 h
    cases hp
    exact List.forall_mem_cons.2 ⟨hread hv, ih hmore⟩
  | case2 => cases h
  | case5 => cases h
  | case6 => cases h

theorem Finds.readPair {p : Key × Value} (h : readPair read cs = some (p, rest)) : p.2.Fits := by
  unfold Toml.readPair at h
  split at h
  · obtain ⟨q, hv, hq⟩ := Option.map_eq_some_iff.1 h
    cases hq
    exact hread hv
  · cases h

theorem Finds.readPairs {pairs : List (Key × Value)} (h : readPairs read cs = some (pairs, rest)) :
    ∀ p ∈ pairs, p.2.Fits := by
  fun_induction Toml.readPairs read cs generalizing pairs rest with
  | case2 _ p _ hp =>
    cases h
    exact List.forall_mem_singleton.2 (hread.readPair hp)
  | case3 _ p _ hp _ _ _ ih =>
    obtain ⟨q, hmore, hq⟩ := Option.map_eq_some_iff.1 h
    cases hq
    exact List.forall_mem_cons.2 ⟨hread.readPair hp, ih hmore⟩
  | case1 => cases h
  | case4 => cases h
  | case5 => cases h

theorem Finds.readBraces : Finds (readBraces read) := by
  intro cs v rest h
  unfold Toml.readBraces at h
  split at h
  · cases h
    exact .table (List.forall_mem_nil _)
  split at h
  · cases h
  · next pairs _ hpairs =>
    obtain ⟨es, hes, h⟩ := Option.map_eq_some_iff.1 h
    cases h
    refine .table (foldlM_induction (P := Entries.Fit) (fun p hp => ?_) Entries.fit_nil hes)
    exact Entries.keeps_assign p.1.path (hread.readPairs hpairs p hp) p.1.name

omit hread

theorem finds_readValue (depth : Nat) : Finds (readValue depth) := by
  induction depth using Nat.strongRecOn with
  | ind depth ih =>
    intro cs v rest h
    unfold readValue at h
    split at h
    · next depth =>
      obtain ⟨p, hp, h⟩ := Option.map_eq_some_iff.1 h
      cases h
      exact .array ((ih depth (Nat.lt_succ_self depth)).readItems hp)
    · next depth => exact (ih depth (Nat.lt_succ_self depth)).readBraces h
    · obtain ⟨p, -, h⟩ := Option.map_eq_some_iff.1 h
      cases h
      exact .text
    · obtain ⟨p, -, h⟩ := Option.map_eq_some_iff.1 h
      cases h
      exact .text
    · exact fits_of_readScalar h

/-! ## Documents -/

def Statement.Fits : Statement → Prop
  | .pair _ v => v.Fits
  | .table _ => True
  | .row _ => True

theorem fits_of_readStatement {s : Statement} (h : readStatement cs = some (s, rest)) : s.Fits := by
  unfold readStatement at h
  split at h
  · split at h
    · cases h
      trivial
    · cases h
  · split at h
    · cases h
      trivial
    · cases h
  · obtain ⟨p, hp, h⟩ := Option.map_eq_some_iff.1 h
    cases h
    exact (finds_readValue maxDepth).readPair hp

theorem fits_of_readStatements {ss : List Statement} (h : readStatements cs = some ss) :
    ∀ s ∈ ss, s.Fits := by
  fun_induction readStatements cs generalizing ss with
  | case1 =>
    cases h
    exact List.forall_mem_nil _
  | case2 _ _ _ _ _ ih => exact ih h
  | case6 _ _ _ s _ hs _ _ _ ih =>
    obtain ⟨ss, hmore, rfl⟩ := Option.map_eq_some_iff.1 h
    exact List.forall_mem_cons.2 ⟨fits_of_readStatement hs, ih hmore⟩
  | case3 => cases h
  | case4 => cases h
  | case5 => cases h
  | case7 => cases h

theorem fit_of_apply {st st' : Filling} {s : Statement} (hs : s.Fits) (hst : st.root.Fit)
    (h : s.apply st = some st') : st'.root.Fit := by
  cases s with
  | pair key v =>
    obtain ⟨root, hroot, rfl⟩ := Option.map_eq_some_iff.1 h
    exact (Entries.keeps_assign key.path hs key.name).within st.header hst hroot
  | table key =>
    obtain ⟨root, hroot, rfl⟩ := Option.map_eq_some_iff.1 h
    exact (Entries.keeps_openTable key.name).within key.path hst hroot
  | row key =>
    obtain ⟨root, hroot, rfl⟩ := Option.map_eq_some_iff.1 h
    exact (Entries.keeps_openRow key.name).within key.path hst hroot

/-- The table that a document means has no greater integers than the format allows. -/
theorem fit_of_parse {document : String} {es : Entries} (h : parse document = some es) : es.Fit := by
  obtain ⟨ss, hss, h⟩ := Option.bind_eq_some_iff.1 h
  obtain ⟨st, hst, rfl⟩ := Option.map_eq_some_iff.1 h
  refine foldlM_induction (P := fun st : Filling => st.root.Fit) (fun s hs st st' hfit hstep => ?_)
    Entries.fit_nil hst
  exact fit_of_apply (fits_of_readStatements hss s hs) hfit hstep

end RepoSeal.Toml
