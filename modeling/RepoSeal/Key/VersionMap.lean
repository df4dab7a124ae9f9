/-!
# RepoSeal — maps from version numbers

A map has at most one value for every version number. Its rows are kept in ascending order, so that they
can be gone through from either end.
-/

namespace RepoSeal

structure VersionMap (α : Type) where
  rows : List (UInt32 × α)
  ascending : rows.Pairwise fun a b => a.1 < b.1

namespace VersionMap

variable {α : Type}

def empty : VersionMap α := ⟨[], .nil⟩

def get? (m : VersionMap α) (v : UInt32) : Option α := m.rows.lookup v

def contains (m : VersionMap α) (v : UInt32) : Bool := (m.get? v).isSome

/-- The version numbers that have a value, in ascending order. -/
def keys (m : VersionMap α) : List UInt32 := m.rows.map Prod.fst

/-- The values in ascending order of their version numbers. -/
def values (m : VersionMap α) : List α := m.rows.map Prod.snd

theorem lookup_row (u : UInt32) (row : UInt32 × α) (rest : List (UInt32 × α)) :
    (row :: rest).lookup u = if u = row.1 then some row.2 else rest.lookup u := by
  rw [List.lookup_cons]
  by_cases h : u = row.1
  · rw [if_pos h, beq_iff_eq.mpr h]
  · rw [if_neg h, beq_eq_false_iff_ne.mpr h]

theorem get?_eq_some {m : VersionMap α} {v : UInt32} {a : α} :
    m.get? v = some a ↔ (v, a) ∈ m.rows := by
  obtain ⟨rows, hrows⟩ := m
  show rows.lookup v = some a ↔ (v, a) ∈ rows
  induction rows with
  | nil => simp
  | cons first rest ih =>
    obtain ⟨hfirst, hrest⟩ := List.pairwise_cons.mp hrows
    rw [lookup_row, List.mem_cons]
    split
    · -- the rows behind are at greater numbers
      rename_i hv
      constructor
      · intro ha
        cases ha
        exact .inl (Prod.ext hv rfl)
      · rintro (hrow | hrow)
        · rw [← hrow]
        · exact absurd (hv ▸ hfirst _ hrow) (UInt32.lt_irrefl _)
    · rename_i hv
      rw [ih hrest]
      exact ⟨.inr, fun h => h.resolve_left fun hrow => hv (congrArg Prod.fst hrow)⟩

/-! ## Insertion -/

/-- The rows with a value for a version number, in place of the one that was there. -/
def insertRow (v : UInt32) (a : α) : List (UInt32 × α) → List (UInt32 × α)
  | [] => [(v, a)]
  | row :: rest =>
    if v < row.1 then (v, a) :: row :: rest
    else if v = row.1 then (v, a) :: rest
    else row :: insertRow v a rest

theorem mem_of_mem_insertRow {v : UInt32} {a : α} {rows : List (UInt32 × α)} {row : UInt32 × α}
    (h : row ∈ insertRow v a rows) : row = (v, a) ∨ row ∈ rows := by
  induction rows with
  | nil => exact .inl (List.mem_singleton.mp h)
  | cons first rest ih =>
    unfold insertRow at h
    split at h
    · exact List.mem_cons.mp h
    · split at h
      · exact (List.mem_cons.mp h).imp_right (List.mem_cons_of_mem first)
      · rcases List.mem_cons.mp h with rfl | h
        · exact .inr List.mem_cons_self
        · exact (ih h).imp_right (List.mem_cons_of_mem first)

theorem ascending_insertRow (v : UInt32) (a : α) {rows : List (UInt32 × α)}
    (h : rows.Pairwise fun a b => a.1 < b.1) :
    (insertRow v a rows).Pairwise fun a b => a.1 < b.1 := by
  induction rows with
  | nil => exact List.pairwise_singleton _ _
  | cons first rest ih =>
    obtain ⟨hfirst, hrest⟩ := List.pairwise_cons.mp h
    unfold insertRow
    split
    · rename_i hlt
      refine List.pairwise_cons.mpr ⟨fun row hrow => ?_, h⟩
      rcases List.mem_cons.mp hrow with rfl | hrow
      · exact hlt
      · exact UInt32.lt_trans hlt (hfirst row hrow)
    · rename_i hge
      split
      · rename_i hsame
        exact List.pairwise_cons.mpr ⟨fun row hrow => hsame ▸ hfirst row hrow, hrest⟩
      · rename_i hne
        refine List.pairwise_cons.mpr ⟨fun row hrow => ?_, ih hrest⟩
        rcases mem_of_mem_insertRow hrow with rfl | hrow
        · exact UInt32.lt_of_le_of_ne (UInt32.not_lt.mp hge) fun heq => hne heq.symm
        · exact hfirst row hrow

def insert (m : VersionMap α) (v : UInt32) (a : α) : VersionMap α :=
  ⟨insertRow v a m.rows, ascending_insertRow v a m.ascending⟩

theorem get?_insert (m : VersionMap α) (v u : UInt32) (a : α) :
    (m.insert v a).get? u = if u = v then some a else m.get? u := by
  show (insertRow v a m.rows).lookup u = if u = v then some a else m.rows.lookup u
  induction m.rows with
  | nil => exact lookup_row u (v, a) []
  | cons first rest ih =>
    unfold insertRow
    split
    · exact lookup_row u (v, a) (first :: rest)
    · split
      · rename_i hsame
        rw [lookup_row, lookup_row, ← hsame]
        dsimp only
        by_cases hu : u = v
        · rw [if_pos hu, if_pos hu]
        · rw [if_neg hu, if_neg hu, if_neg hu]
      · rename_i hne
        rw [lookup_row, lookup_row, ih]
        by_cases hu : u = first.1
        · have hv : u ≠ v := fun h => hne (h.symm.trans hu)
          rw [if_pos hu, if_pos hu, if_neg hv]
        · rw [if_neg hu, if_neg hu]

end VersionMap

end RepoSeal
