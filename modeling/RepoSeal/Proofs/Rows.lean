import RepoSeal.Proofs.Copies
import RepoSeal.Proofs.Plans
import RepoSeal.Proofs.Routes
import Mathlib.Data.List.Nodup

/-!
# RepoSeal — the rows of a listing

What listing a store gives is described for every tree, with whatever lies in it. Keys and versions are
read back from the names of directories. Each key has one directory, but a version can be written in
several ways, and of the directories that are written for one version the last one counts
(`versionDirectory?`). There is a row for every file in those directories that can be a copy, and the
rows are in strict order (`list_rows`); a directory whose path is too long ends it (`list_refused`).
-/

namespace RepoSeal

/-! ## Orders -/

/-- The default key comes first, the others by name. -/
def KeyLt : Option KeyName → Option KeyName → Prop
  | none, some _ => True
  | some a, some b => a.text < b.text
  | _, none => False

/-- By key, version and recipient. -/
def WrappedKey.Before (a b : WrappedKey) : Prop :=
  KeyLt a.name b.name ∨ a.name = b.name ∧
    (a.version < b.version ∨ a.version = b.version ∧ a.fingerprint < b.fingerprint)

/-- Sorting by a key that no two elements share puts them in strict order. -/
theorem pairwise_mergeSort_of_nodup {α β : Type} (key : α → β) (le : β → β → Bool)
    (lt : β → β → Prop) (trans : ∀ a b c, le a b → le b c → le a c) (total : ∀ a b, le a b || le b a)
    (strict : ∀ a b, le a b → a ≠ b → lt a b) {l : List α} (hl : (l.map key).Nodup) :
    (l.mergeSort fun a b => le (key a) (key b)).Pairwise fun a b => lt (key a) (key b) := by
  have hperm := List.mergeSort_perm l fun a b => le (key a) (key b)
  have hnodup : ((l.mergeSort fun a b => le (key a) (key b)).map key).Nodup :=
    (hperm.map key).nodup_iff.mpr hl
  have hsorted : (l.mergeSort fun a b => le (key a) (key b)).Pairwise
      fun a b => le (key a) (key b) = true :=
    List.pairwise_mergeSort (fun a b c => trans (key a) (key b) (key c))
      (fun a b => total (key a) (key b)) l
  exact hsorted.imp₂ (fun a b hab hne => strict _ _ hab hne) (List.pairwise_map.mp hnodup)

theorem stringLe_trans (a b c : String) (hab : decide (a ≤ b)) (hbc : decide (b ≤ c)) :
    decide (a ≤ c) :=
  decide_eq_true (String.le_trans (of_decide_eq_true hab) (of_decide_eq_true hbc))

theorem stringLe_total (a b : String) : decide (a ≤ b) || decide (b ≤ a) := by
  simpa using String.le_total a b

theorem lt_of_stringLe (a b : String) (hab : decide (a ≤ b)) (hne : a ≠ b) : a < b :=
  String.not_le.mp fun hba => hne (String.le_antisymm (of_decide_eq_true hab) hba)

theorem KeyLt.irrefl (a : Option KeyName) : ¬ KeyLt a a := by
  cases a with
  | none => exact id
  | some a => exact String.lt_irrefl a.text

theorem KeyLt.trans {a b c : Option KeyName} (hab : KeyLt a b) (hbc : KeyLt b c) : KeyLt a c := by
  cases c with
  | none => cases b <;> cases hbc
  | some c =>
    cases a with
    | none => trivial
    | some a =>
      cases b with
      | none => cases hab
      | some b => exact String.lt_trans hab hbc

namespace WrappedKey.Before

theorem irrefl (a : WrappedKey) : ¬ a.Before a := by
  rintro (h | ⟨-, h | ⟨-, h⟩⟩)
  · exact KeyLt.irrefl _ h
  · exact UInt32.lt_irrefl _ h
  · exact String.lt_irrefl _ h

theorem asymm {a b : WrappedKey} (hab : a.Before b) : ¬ b.Before a := by
  rintro (hba | ⟨hname, hba⟩)
  · rcases hab with hab | ⟨hname, -⟩
    · exact KeyLt.irrefl _ (hab.trans hba)
    · exact KeyLt.irrefl _ (hname ▸ hba)
  · rcases hab with hab | ⟨-, hab⟩
    · exact KeyLt.irrefl _ (hname ▸ hab)
    · rcases hab with hab | ⟨hv, hab⟩ <;> rcases hba with hba | ⟨hv', hba⟩
      · exact UInt32.lt_irrefl _ (UInt32.lt_trans hab hba)
      · exact UInt32.lt_irrefl _ (hv' ▸ hab)
      · exact UInt32.lt_irrefl _ (hv ▸ hba)
      · exact String.lt_irrefl _ (String.lt_trans hab hba)

theorem ne {a b : WrappedKey} (hab : a.Before b) : a ≠ b := by
  rintro rfl
  exact irrefl a hab

/-- Rows in order are given by which rows there are. -/
theorem eq_of_mem_iff {rows rows' : List WrappedKey} (h : rows.Pairwise Before)
    (h' : rows'.Pairwise Before) (hmem : ∀ row, row ∈ rows ↔ row ∈ rows') : rows = rows' := by
  have hperm : rows.Perm rows' := (List.perm_ext_iff_of_nodup (h.imp ne) (h'.imp ne)).mpr hmem
  exact hperm.eq_of_pairwise (fun a b _ _ hab hba => absurd hba hab.asymm) h h'

end WrappedKey.Before

/-! ## Listing a directory -/

namespace Tree

variable {t : Tree} {loc : Location} {p : Path} {name : String}

/-- The names below a location, each with its kind. -/
def entriesAt (t : Tree) (loc : Location) : List (String × EntryKind) :=
  (t.childrenOf loc).map fun (name, node) => (name, kindOf node)

theorem listDirectory_of_lookup (h : t.lookup .use p = .ok (.found loc .directory)) :
    t.listDirectory p = .ok (t.entriesAt loc) := by
  rw [listDirectory, h]
  rfl

/-- A directory in one that a path leads to is listed, unless its path is too long. -/
theorem Reaches.listDirectory_join (h : t.Reaches p loc) (hname : Path.IsStep name)
    (hdir : t.find? (loc ++ [name]) = some .directory) :
    t.listDirectory (p / name) =
      if (p / name).Fits then .ok (t.entriesAt (loc ++ [name])) else .error .nameTooLong := by
  have hpart := hname.toIsPart
  have hnul : '\x00' ∉ (p / name).text.toList :=
    Path.not_mem_join hpart (by decide) h.no_nul hname.no_nul
  by_cases hfits : (p / name).Fits
  · rw [if_pos hfits]
    have hlen : name.utf8ByteSize ≤ maxNameLength := hfits.part_le name (by
      rw [p.parts_join hpart]
      exact List.mem_append_right _ (List.mem_singleton_self name))
    exact listDirectory_of_lookup ((h.join hname hlen hdir).lookup hfits.length_le)
  · -- the whole path is too long, or else it is the name
    have hlookup : t.lookup .use (p / name) = .error .nameTooLong := by
      rw [lookup_eq_walk ((p.isAbsolute_join hpart).trans h.relative) (p.ending_join hpart) hnul]
      split
      · rfl
      · rename_i hlen
        obtain ⟨k, hgoes⟩ := h.goes
        have hlong : maxNameLength < name.utf8ByteSize := by
          by_contra hshort
          refine hfits ⟨⟨hnul, Nat.le_of_not_lt hlen⟩, ?_⟩
          rw [p.parts_join hpart, List.forall_mem_append, List.forall_mem_singleton]
          exact ⟨h.part_le, Nat.le_of_not_lt hshort⟩
        have hlast : isLast [name] = false := by simp [isLast, ne_slash_of_isPart hpart]
        rw [p.parts_join hpart, hgoes.walk_append hlast,
          walk_name (ne_slash_of_isPart hpart) hpart.ne_dot hname.not_up, if_pos hlong]
    rw [if_neg hfits, listDirectory, hlookup]

end Tree

namespace Store

theorem keyBefore_trans (a b c : Option KeyName) (hab : keyBefore a b) (hbc : keyBefore b c) :
    keyBefore a c := by
  cases a with
  | none => rfl
  | some a =>
    cases b with
    | none => cases hab
    | some b =>
      cases c with
      | none => cases hbc
      | some c => exact stringLe_trans a.text b.text c.text hab hbc

theorem keyBefore_total (a b : Option KeyName) : keyBefore a b || keyBefore b a := by
  cases a with
  | none => rfl
  | some a =>
    cases b with
    | none => rfl
    | some b => exact stringLe_total a.text b.text

theorem keyLt_of_keyBefore (a b : Option KeyName) (hab : keyBefore a b) (hne : a ≠ b) :
    KeyLt a b := by
  cases a with
  | none =>
    cases b with
    | none => exact absurd rfl hne
    | some b => trivial
  | some a =>
    cases b with
    | none => cases hab
    | some b =>
      refine lt_of_stringLe a.text b.text hab fun htext => hne ?_
      have hname : KeyName.ofText a.text = .ok b := KeyName.ofText_eq_ok.mpr htext.symm
      rw [a.ofText_text] at hname
      exact congrArg some (Except.ok.inj hname)

/-! ## Names in a directory -/

variable {t : Tree} {loc : Location} {s : Store}

theorem mem_entriesAt (h : t.Sound) {name : String} {kind : EntryKind} :
    (name, kind) ∈ t.entriesAt loc ↔
      ∃ node, t.find? (loc ++ [name]) = some node ∧ Tree.kindOf node = kind := by
  simp [Tree.entriesAt, h.mem_childrenOf]

theorem nodup_entriesAt (h : t.Sound) : ((t.entriesAt loc).map Prod.fst).Nodup := by
  rw [Tree.entriesAt, List.map_map]
  exact h.nodup_childrenOf loc

theorem mem_directoriesIn (h : t.Sound) {name : String} :
    name ∈ directoriesIn (t.entriesAt loc) ↔ t.find? (loc ++ [name]) = some .directory := by
  have hmem : name ∈ directoriesIn (t.entriesAt loc) ↔ (name, .directory) ∈ t.entriesAt loc := by
    simp [directoriesIn]
  rw [hmem, mem_entriesAt h]
  constructor
  · rintro ⟨node, hnode, hkind⟩
    cases node with
    | directory => exact hnode
    | file content mode => cases hkind
    | link target => cases hkind
  · exact fun hnode => ⟨.directory, hnode, rfl⟩

theorem nodup_directoriesIn (h : t.Sound) (loc : Location) :
    (directoriesIn (t.entriesAt loc)).Nodup := by
  have hsub : (directoriesIn (t.entriesAt loc)).Sublist ((t.entriesAt loc).map Prod.fst) := by
    generalize t.entriesAt loc = entries
    induction entries with
    | nil => exact List.Sublist.refl _
    | cons e entries ih =>
      obtain ⟨name, kind⟩ := e
      by_cases hkind : kind = .directory
      · have hcons : directoriesIn ((name, kind) :: entries) = name :: directoriesIn entries := by
          simp [directoriesIn, hkind]
        rw [hcons]
        exact ih.cons_cons _
      · have hskip : directoriesIn ((name, kind) :: entries) = directoriesIn entries := by
          simp [directoriesIn, hkind]
        rw [hskip]
        exact ih.cons _
  exact (nodup_entriesAt h).sublist hsub

theorem keyOfDirectory_eq_some {d : String} {name : Option KeyName} :
    keyOfDirectory d = some name ↔ d = shownKeyName name := by
  constructor
  · intro h
    unfold keyOfDirectory at h
    split at h
    · rename_i hdefault
      cases h
      exact hdefault
    · split at h
      · rename_i n hn
        cases h
        exact (KeyName.ofText_eq_ok.mp hn).symm
      · cases h
  · rintro rfl
    exact keyOfDirectory_shownKeyName name

/-! ### Directories of versions -/

/-- Of some directories, the one that counts for a version: the last that is written for it. -/
def lastFor? (dirs : List String) (v : UInt32) : Option String :=
  (dirs.filter fun d => version? d = some v).getLast?

theorem lastFor?_concat (dirs : List String) (d : String) (v : UInt32) :
    lastFor? (dirs ++ [d]) v = if version? d = some v then some d else lastFor? dirs v := by
  unfold lastFor?
  by_cases h : version? d = some v
  · simp [h]
  · simp [h]

theorem mem_of_lastFor? {dirs : List String} {v : UInt32} {d : String}
    (h : lastFor? dirs v = some d) : d ∈ dirs ∧ version? d = some v := by
  have hmem := List.mem_of_getLast? h
  rw [List.mem_filter] at hmem
  exact ⟨hmem.1, of_decide_eq_true hmem.2⟩

/-- The directories that count, each with its version, in the order in which they are found. -/
def lastOfEach (dirs : List String) : List (UInt32 × String) :=
  (dirs.filterMap fun d => (version? d).map fun v => (v, d)).foldl
    (fun vs e => vs.filter (·.1 ≠ e.1) ++ [e]) []

theorem versionsIn_eq (dirs : List String) :
    versionsIn dirs = (lastOfEach dirs).mergeSort fun a b => decide (a.1 ≤ b.1) := rfl

theorem lastOfEach_concat (dirs : List String) (d : String) :
    lastOfEach (dirs ++ [d]) =
      match version? d with
      | none => lastOfEach dirs
      | some v => (lastOfEach dirs).filter (·.1 ≠ v) ++ [(v, d)] := by
  cases hv : version? d with
  | none => simp [lastOfEach, hv]
  | some v => simp [lastOfEach, hv]

/-- From one directory to the next, what was kept for its version is replaced. -/
theorem lastOfEach_spec (dirs : List String) :
    ((lastOfEach dirs).map Prod.fst).Nodup ∧
      ∀ v d, (v, d) ∈ lastOfEach dirs ↔ lastFor? dirs v = some d := by
  induction dirs using List.reverseRecOn with
  | nil => exact ⟨List.nodup_nil, fun v d => by simp [lastOfEach, lastFor?]⟩
  | append_singleton dirs d ih =>
    obtain ⟨hnodup, hmem⟩ := ih
    rw [lastOfEach_concat]
    cases hv : version? d with
    | none =>
      refine ⟨hnodup, fun w x => ?_⟩
      rw [hmem, lastFor?_concat, hv, if_neg (by simp)]
    | some v =>
      dsimp only
      constructor
      · rw [List.map_append, List.nodup_append]
        refine ⟨hnodup.sublist (List.filter_sublist.map _), List.nodup_singleton _, ?_⟩
        intro w hw w' hw'
        obtain ⟨e, he, rfl⟩ := List.mem_map.mp hw
        rw [List.mem_filter] at he
        rw [List.mem_singleton.mp hw']
        exact of_decide_eq_true he.2
      · intro w x
        rw [List.mem_append, List.mem_filter, hmem, lastFor?_concat, hv, List.mem_singleton]
        by_cases hvw : v = w
        · subst hvw
          simp [eq_comm]
        · simp [hvw, Ne.symm hvw]

/-- Each version has one directory, the last one that is written for it, and they come in the order of
versions. -/
theorem versionsIn_spec (dirs : List String) :
    (versionsIn dirs).Pairwise (fun a b => a.1 < b.1) ∧
      ∀ v d, (v, d) ∈ versionsIn dirs ↔ lastFor? dirs v = some d := by
  obtain ⟨hnodup, hmem⟩ := lastOfEach_spec dirs
  rw [versionsIn_eq]
  refine ⟨?_, fun v d => by rw [List.mem_mergeSort, hmem]⟩
  refine pairwise_mergeSort_of_nodup Prod.fst (fun v w => decide (v ≤ w)) (· < ·) ?_ ?_ ?_ hnodup
  · intro a b c hab hbc
    exact decide_eq_true (UInt32.le_trans (of_decide_eq_true hab) (of_decide_eq_true hbc))
  · intro a b
    simpa using UInt32.le_total a b
  · intro a b hab hne
    exact UInt32.lt_of_le_of_ne (of_decide_eq_true hab) hne

/-- Where versions are written in the usual way only, no directory takes the place of another one. -/
theorem lastFor?_eq_some {dirs : List String} {v : UInt32} {d : String}
    (h : ∀ x ∈ dirs, version? x = some v → x = toString v) :
    lastFor? dirs v = some d ↔ d = toString v ∧ d ∈ dirs := by
  constructor
  · intro hlast
    obtain ⟨hmem, hv⟩ := mem_of_lastFor? hlast
    exact ⟨h d hmem hv, hmem⟩
  · rintro ⟨rfl, hmem⟩
    have hfound : toString v ∈ dirs.filter fun x => version? x = some v :=
      List.mem_filter.mpr ⟨hmem, decide_eq_true (version?_toString v)⟩
    -- so there is a last one, and it is the only one
    have hlast : lastFor? dirs v = some (_ : String) :=
      List.getLast?_eq_some_getLast (List.ne_nil_of_mem hfound)
    obtain ⟨hmem', hv⟩ := mem_of_lastFor? hlast
    rw [hlast, h _ hmem' hv]

/-! ### Names that lead one step down -/

theorem isStep_shownKeyName (name : Option KeyName) : Path.IsStep (shownKeyName name) where
  toIsPart := (isPart_shownKeyName name).1
  not_up := (isPart_shownKeyName name).2
  no_nul := by
    cases name with
    | none => decide
    | some n =>
      intro hmem
      have hchar := (keyNameFlaw_eq_none.mp n.valid).2.2.1 _ hmem
      exact absurd hchar (by decide)

theorem utf8ByteSize_shownKeyName (name : Option KeyName) :
    (shownKeyName name).utf8ByteSize ≤ Tree.maxNameLength := by
  cases name with
  | none => decide
  | some n => exact (keyNameFlaw_eq_none.mp n.valid).2.2.2.trans (by decide)

/-- A version is written with digits, behind a plus or not. -/
theorem isStep_of_version? {d : String} {v : UInt32} (h : version? d = some v) : Path.IsStep d := by
  have hchars : d.toList ≠ [] ∧ ∀ c ∈ d.toList, c = '+' ∨ c.isDigit = true := by
    have hdigits : ∀ {cs : List Char}, (decide (cs ≠ []) && cs.all Char.isDigit) = true →
        cs ≠ [] ∧ ∀ c ∈ cs, c.isDigit = true := by simp
    unfold version? at h
    dsimp only at h
    split at h
    · rename_i rest heq
      split at h
      · rename_i hrest
        rw [heq]
        exact ⟨List.cons_ne_nil _ _, List.forall_mem_cons.mpr
          ⟨.inl rfl, fun c hc => .inr ((hdigits hrest).2 c hc)⟩⟩
      · cases h
    · split at h
      · rename_i hall
        exact ⟨(hdigits hall).1, fun c hc => .inr ((hdigits hall).2 c hc)⟩
      · cases h
  have hno : ∀ c : Char, c ≠ '+' → c.isDigit = false → c ∉ d.toList := by
    intro c hplus hdigit hmem
    rcases hchars.2 c hmem with h | h
    · exact hplus h
    · rw [hdigit] at h
      cases h
  have hdot : '.' ∉ d.toList := hno '.' (by decide) (by decide)
  refine ⟨⟨fun hempty => ?_, hno '/' (by decide) (by decide), fun h => ?_⟩, fun h => ?_,
    hno '\x00' (by decide) (by decide)⟩
  · exact hchars.1 (by rw [hempty]; rfl)
  · exact hdot (by rw [h]; decide)
  · exact hdot (by rw [h]; decide)

/-! ## Rows -/

/-- The directory of a key that counts for a version, where the directories of keys lie below `loc`. -/
def versionDirectory? (t : Tree) (loc : Location) (name : Option KeyName) (v : UInt32) :
    Option String :=
  lastFor? (directoriesIn (t.entriesAt (loc ++ [shownKeyName name]))) v

/-- A line that tells of a file in the directory that counts for its version. -/
def HasFile (s : Store) (t : Tree) (loc : Location) (row : WrappedKey) : Prop :=
  ∃ d, versionDirectory? t loc row.name row.version = some d ∧ ListedFingerprint row.fingerprint ∧
    (t.find? (loc ++ [shownKeyName row.name, d, s.fileName row.fingerprint])).isSome ∧
    row.path = s.keyDir (row.name.map KeyName.text) / d / s.fileName row.fingerprint

/-- The paths of the directories of a key are not too long. -/
structure OpensKey (s : Store) (t : Tree) (loc : Location) (name : Option KeyName) : Prop where
  fits : (s.keyDir (name.map KeyName.text)).Fits
  version_fits : ∀ v d, versionDirectory? t loc name v = some d →
    (s.keyDir (name.map KeyName.text) / d).Fits

/-- The paths of the directories that a listing opens are not too long. -/
def Opens (s : Store) (t : Tree) (loc : Location) : Prop :=
  ∀ name, t.find? (loc ++ [shownKeyName name]) = some .directory → s.OpensKey t loc name

variable {name : Option KeyName} {v : UInt32} {d : String} {dir : Path}

theorem ending_root (s : Store) : s.root.ending = [] :=
  s.base.ending_join ⟨by decide, by decide, by decide⟩

theorem keyDir_eq (s : Store) (name : Option KeyName) :
    s.keyDir (name.map KeyName.text) = s.root / shownKeyName name := by
  rw [keyDir, getD_defaultKeyName]

/-- Where the directories of versions are named in the usual way, each version has its own. -/
def PlainVersions (t : Tree) (loc : Location) : Prop :=
  ∀ name d v, t.find? (loc ++ [shownKeyName name, d]) = some .directory → version? d = some v →
    d = toString v

theorem versionDirectory?_eq_some (ht : t.Sound) (hplain : PlainVersions t loc) :
    versionDirectory? t loc name v = some d ↔
      d = toString v ∧ t.find? (loc ++ [shownKeyName name, d]) = some .directory := by
  have hdir : ∀ x, x ∈ directoriesIn (t.entriesAt (loc ++ [shownKeyName name])) ↔
      t.find? (loc ++ [shownKeyName name, x]) = some .directory := by
    intro x
    rw [mem_directoriesIn ht, ← List.append_cons]
  rw [versionDirectory?, lastFor?_eq_some fun x hx => hplain name x v ((hdir x).mp hx), hdir]

/-- The line that an entry stands for in a directory that is opened as that of a version. -/
def rowIn (s : Store) (name : Option KeyName) (v : UInt32) (dir : Path) (e : String × EntryKind) :
    Option WrappedKey :=
  (s.fingerprintOf e.1).map fun f => ⟨name, v, f, dir / e.1⟩

theorem rowIn_eq_some {e : String × EntryKind} {row : WrappedKey} :
    s.rowIn name v dir e = some row ↔
      e.1 = s.fileName row.fingerprint ∧ row.name = name ∧ row.version = v ∧
        ListedFingerprint row.fingerprint ∧ row.path = dir / s.fileName row.fingerprint := by
  obtain ⟨name', v', f, path⟩ := row
  rw [rowIn, Option.map_eq_some_iff]
  constructor
  · rintro ⟨f', hf', heq⟩
    cases heq
    obtain ⟨hfile, hf⟩ := fingerprintOf_eq_some.mp hf'
    exact ⟨hfile, rfl, rfl, hf, by rw [hfile]⟩
  · rintro ⟨hfile, hname, hv, hf, hpath⟩
    refine ⟨f, fingerprintOf_eq_some.mpr ⟨hfile, hf⟩, ?_⟩
    dsimp only at hname hv hpath
    rw [hname, hv, hpath, hfile]

theorem mem_rowsIn (ht : t.Sound) {row : WrappedKey} :
    row ∈ (t.entriesAt loc).filterMap (s.rowIn name v dir) ↔
      row.name = name ∧ row.version = v ∧ ListedFingerprint row.fingerprint ∧
        (t.find? (loc ++ [s.fileName row.fingerprint])).isSome ∧
        row.path = dir / s.fileName row.fingerprint := by
  rw [List.mem_filterMap, Option.isSome_iff_exists]
  constructor
  · rintro ⟨⟨file, kind⟩, he, hrow⟩
    obtain ⟨rfl, hname, hv, hf, hpath⟩ := rowIn_eq_some.mp hrow
    obtain ⟨node, hnode, -⟩ := (mem_entriesAt ht).mp he
    exact ⟨hname, hv, hf, ⟨node, hnode⟩, hpath⟩
  · rintro ⟨hname, hv, hf, ⟨node, hnode⟩, hpath⟩
    exact ⟨_, (mem_entriesAt ht).mpr ⟨node, hnode, rfl⟩,
      rowIn_eq_some.mpr ⟨rfl, hname, hv, hf, hpath⟩⟩

/-- Different files are copies for different recipients. -/
theorem nodup_rowsIn (s : Store) (name : Option KeyName) (v : UInt32) (dir : Path) (ht : t.Sound)
    (loc : Location) :
    (((t.entriesAt loc).filterMap (s.rowIn name v dir)).map WrappedKey.fingerprint).Nodup := by
  have hnames : (t.entriesAt loc).Pairwise fun e e' => e.1 ≠ e'.1 :=
    List.pairwise_map.mp (nodup_entriesAt ht)
  rw [List.Nodup, List.pairwise_map, List.pairwise_filterMap]
  refine hnames.imp fun {e e'} hne row hrow row' hrow' hsame => hne ?_
  rw [(rowIn_eq_some.mp hrow).1, (rowIn_eq_some.mp hrow').1, hsame]

/-- The rows of a directory that is opened as that of a version. -/
theorem listVersion_rows (s : Store) (name : Option KeyName) (v : UInt32) (ht : t.Sound)
    (h : t.listDirectory dir = .ok (t.entriesAt loc)) :
    ∃ rows, (s.listVersion name v dir).Gives t (.ok rows) ∧ rows.Pairwise WrappedKey.Before ∧
      ∀ row, row ∈ rows ↔ row.name = name ∧ row.version = v ∧ ListedFingerprint row.fingerprint ∧
        (t.find? (loc ++ [s.fileName row.fingerprint])).isSome ∧
        row.path = dir / s.fileName row.fingerprint := by
  have hsorted := pairwise_mergeSort_of_nodup WrappedKey.fingerprint (fun a b => decide (a ≤ b))
    (· < ·) stringLe_trans stringLe_total lt_of_stringLe
    (nodup_rowsIn s name v dir ht loc)
  refine ⟨_, (Attempt.gives_listDirectory h).bind (Attempt.gives_pure _), ?_, fun row => ?_⟩
  · refine hsorted.imp_of_mem fun {row row'} hrow hrow' hlt => ?_
    -- the key and the version are the same in all lines, so the recipients decide
    obtain ⟨hname, hv, -⟩ := (mem_rowsIn ht).mp (List.mem_mergeSort.mp hrow)
    obtain ⟨hname', hv', -⟩ := (mem_rowsIn ht).mp (List.mem_mergeSort.mp hrow')
    exact .inr ⟨hname.trans hname'.symm, .inr ⟨hv.trans hv'.symm, hlt⟩⟩
  · rw [List.mem_mergeSort]
    exact mem_rowsIn ht

section

variable (hroot : t.lookup .use s.root = .ok (.found loc .directory))

include hroot

theorem root_reaches : t.Reaches s.root loc :=
  (Tree.reaches_of_lookup s.ending_root hroot).1

theorem listDirectory_keyDir (hkey : t.find? (loc ++ [shownKeyName name]) = some .directory) :
    t.listDirectory (s.keyDir (name.map KeyName.text)) =
      if (s.keyDir (name.map KeyName.text)).Fits then
        .ok (t.entriesAt (loc ++ [shownKeyName name]))
      else .error .nameTooLong := by
  rw [s.keyDir_eq]
  exact (root_reaches hroot).listDirectory_join (isStep_shownKeyName name) hkey

variable (ht : t.Sound)

include ht

theorem listDirectory_version (hkey : t.find? (loc ++ [shownKeyName name]) = some .directory)
    (hd : versionDirectory? t loc name v = some d) :
    t.listDirectory (s.keyDir (name.map KeyName.text) / d) =
      if (s.keyDir (name.map KeyName.text) / d).Fits then
        .ok (t.entriesAt (loc ++ [shownKeyName name] ++ [d]))
      else .error .nameTooLong := by
  obtain ⟨hmem, hv⟩ := mem_of_lastFor? hd
  rw [s.keyDir_eq]
  exact ((root_reaches hroot).join (isStep_shownKeyName name) (utf8ByteSize_shownKeyName name)
    hkey).listDirectory_join (isStep_of_version? hv) ((mem_directoriesIn ht).mp hmem)

/-- The rows of a key, if its directories can be opened. -/
theorem listKey_rows (hopens : s.OpensKey t loc name)
    (hkey : t.find? (loc ++ [shownKeyName name]) = some .directory) :
    ∃ rows, (s.listKey name).Gives t (.ok rows) ∧ rows.Pairwise WrappedKey.Before ∧
      ∀ row, row ∈ rows ↔ row.name = name ∧ s.HasFile t loc row := by
  have hlisted := listDirectory_keyDir hroot hkey
  rw [if_pos hopens.fits] at hlisted
  obtain ⟨hsorted, hversions⟩ :=
    versionsIn_spec (directoriesIn (t.entriesAt (loc ++ [shownKeyName name])))
  let mine (x : UInt32 × String) (row : WrappedKey) : Prop :=
    row.name = name ∧ row.version = x.1 ∧ ListedFingerprint row.fingerprint ∧
      (t.find? (loc ++ [shownKeyName name] ++ [x.2] ++ [s.fileName row.fingerprint])).isSome ∧
      row.path = s.keyDir (name.map KeyName.text) / x.2 / s.fileName row.fingerprint
  have heach : ∀ x ∈ versionsIn (directoriesIn (t.entriesAt (loc ++ [shownKeyName name]))),
      ∃ rows, (s.listVersion name x.1 (s.keyDir (name.map KeyName.text) / x.2)).Gives t (.ok rows) ∧
        rows.Pairwise WrappedKey.Before ∧ ∀ row, row ∈ rows ↔ mine x row := by
    rintro ⟨version, d⟩ hx
    have hd := (hversions version d).mp hx
    have hopen := listDirectory_version hroot ht hkey hd
    rw [if_pos (hopens.version_fits version d hd)] at hopen
    exact listVersion_rows s name version ht hopen
  have horder : (versionsIn (directoriesIn (t.entriesAt (loc ++ [shownKeyName name])))).Pairwise
      fun x x' => ∀ row row', mine x row → mine x' row' → row.Before row' := by
    refine hsorted.imp fun {x x'} hlt row row' hrow hrow' => ?_
    obtain ⟨hname, hv, -⟩ := hrow
    obtain ⟨hname', hv', -⟩ := hrow'
    refine .inr ⟨hname.trans hname'.symm, .inl ?_⟩
    rw [hv, hv']
    exact hlt
  obtain ⟨rows, hgives, hrows, hmem⟩ := Attempt.gives_flatten _ mine _ heach horder
  refine ⟨rows, (Attempt.gives_listDirectory hlisted).bind hgives, hrows, fun row => ?_⟩
  rw [hmem]
  constructor
  · rintro ⟨⟨version, d⟩, hx, rfl, rfl, hf, hfile, hpath⟩
    refine ⟨rfl, d, (hversions _ _).mp hx, hf, ?_, hpath⟩
    simpa using hfile
  · rintro ⟨rfl, d, hd, hf, hfile, hpath⟩
    refine ⟨(row.version, d), (hversions _ _).mpr hd, rfl, rfl, hf, ?_, hpath⟩
    simpa using hfile

/-- A key is not listed if one of its directories cannot be opened. -/
theorem listKey_refused (hopens : ¬ s.OpensKey t loc name)
    (hkey : t.find? (loc ++ [shownKeyName name]) = some .directory) :
    (s.listKey name).Gives t (.error (.io .nameTooLong)) := by
  have hlisted := listDirectory_keyDir hroot hkey
  by_cases hfits : (s.keyDir (name.map KeyName.text)).Fits
  · rw [if_pos hfits] at hlisted
    refine (Attempt.gives_listDirectory hlisted).bind ?_
    have hversions := (versionsIn_spec (directoriesIn (t.entriesAt (loc ++ [shownKeyName name])))).2
    refine Attempt.gives_flatten_error (fun x hx => ?_) ?_
    · -- each version is listed, or its path is too long
      have hopen := listDirectory_version hroot ht hkey ((hversions x.1 x.2).mp hx)
      split at hopen
      · obtain ⟨rows, hrows, -⟩ := listVersion_rows s name x.1 ht hopen
        exact .inl ⟨rows, hrows⟩
      · exact .inr (Attempt.gives_listDirectory_error hopen).bind_error
    · have hversion : ∃ v d, versionDirectory? t loc name v = some d ∧
          ¬ (s.keyDir (name.map KeyName.text) / d).Fits := by
        by_contra hall
        exact hopens ⟨hfits, fun v d hd => by_contra fun hnot => hall ⟨v, d, hd, hnot⟩⟩
      obtain ⟨v, d, hd, hnot⟩ := hversion
      have hopen := listDirectory_version hroot ht hkey hd
      rw [if_neg hnot] at hopen
      exact ⟨(v, d), (hversions v d).mpr hd, (Attempt.gives_listDirectory_error hopen).bind_error⟩
  · rw [if_neg hfits] at hlisted
    exact (Attempt.gives_listDirectory_error hlisted).bind_error

/-- The keys that have a directory, in order. -/
theorem keyNames_rows :
    ∃ keys, s.keyNames.Gives t (.ok keys) ∧ keys.Pairwise KeyLt ∧
      ∀ name, name ∈ keys ↔ t.find? (loc ++ [shownKeyName name]) = some .directory := by
  have hpresence : t.presence s.root = .directory := by rw [Tree.presence, hroot]
  let dirs := directoriesIn (t.entriesAt loc)
  -- a key has one directory, so no key comes twice
  have hnodup : ((dirs.filterMap keyOfDirectory).map id).Nodup := by
    rw [List.map_id]
    refine List.Nodup.filterMap ?_ (nodup_directoriesIn ht _)
    intro d d' name hname hname'
    rw [keyOfDirectory_eq_some.mp hname, keyOfDirectory_eq_some.mp hname']
  refine ⟨(dirs.filterMap keyOfDirectory).mergeSort keyBefore, ?_, ?_, fun name => ?_⟩
  · unfold Store.keyNames
    refine (Attempt.gives_presence _).bind ?_
    rw [hpresence]
    exact (Attempt.gives_listDirectory (Tree.listDirectory_of_lookup hroot)).bind
      ((Attempt.gives_log _).bind (Attempt.gives_pure _))
  · exact pairwise_mergeSort_of_nodup id keyBefore KeyLt keyBefore_trans keyBefore_total
      keyLt_of_keyBefore hnodup
  · rw [List.mem_mergeSort, List.mem_filterMap, ← mem_directoriesIn ht]
    constructor
    · rintro ⟨d, hd, hname⟩
      rwa [← keyOfDirectory_eq_some.mp hname]
    · exact fun hd => ⟨_, hd, keyOfDirectory_shownKeyName name⟩

/-- The rows of a store, if its directories can be opened. -/
theorem list_rows (hopens : s.Opens t loc) :
    ∃ rows, s.list.Gives t (.ok rows) ∧ rows.Pairwise WrappedKey.Before ∧
      ∀ row, row ∈ rows ↔ s.HasFile t loc row := by
  obtain ⟨keys, hkeys, hsorted, hkey⟩ := keyNames_rows hroot ht
  have horder : keys.Pairwise fun name name' => ∀ row row' : WrappedKey,
      row.name = name ∧ s.HasFile t loc row → row'.name = name' ∧ s.HasFile t loc row' →
      row.Before row' := by
    refine hsorted.imp fun {name name'} hlt row row' hrow hrow' => .inl ?_
    rw [hrow.1, hrow'.1]
    exact hlt
  obtain ⟨rows, hgives, hrows, hmem⟩ := Attempt.gives_flatten (l := keys) s.listKey
    (fun name row => row.name = name ∧ s.HasFile t loc row) WrappedKey.Before
    (fun name hname => listKey_rows hroot ht (hopens name ((hkey name).mp hname)) ((hkey name).mp hname))
    horder
  refine ⟨rows, hkeys.bind hgives, hrows, fun row => ?_⟩
  rw [hmem]
  constructor
  · rintro ⟨-, -, -, hrow⟩
    exact hrow
  · -- above the directory of a version there is that of its key
    rintro ⟨d, hd, hrow⟩
    have hdir := (mem_directoriesIn ht).mp (mem_of_lastFor? hd).1
    exact ⟨row.name, (hkey row.name).mpr (ht.held _ _ _ hdir), rfl, d, hd, hrow⟩

/-- A store is not listed if one of its directories cannot be opened. -/
theorem list_refused (hopens : ¬ s.Opens t loc) : s.list.Gives t (.error (.io .nameTooLong)) := by
  obtain ⟨keys, hkeys, -, hkey⟩ := keyNames_rows hroot ht
  refine hkeys.bind (Attempt.gives_flatten_error (fun name hname => ?_) ?_)
  · by_cases hname' : s.OpensKey t loc name
    · obtain ⟨rows, hrows, -⟩ := listKey_rows hroot ht hname' ((hkey name).mp hname)
      exact .inl ⟨rows, hrows⟩
    · exact .inr (listKey_refused hroot ht hname' ((hkey name).mp hname))
  · obtain ⟨name, hname, hnot⟩ : ∃ name, t.find? (loc ++ [shownKeyName name]) = some .directory ∧
        ¬ s.OpensKey t loc name := by
      by_contra hall
      exact hopens fun name hname => by_contra fun hnot => hall ⟨name, hname, hnot⟩
    exact ⟨name, (hkey name).mpr hname, listKey_refused hroot ht hnot hname⟩

end

theorem keyNames_of_absent (h : t.presence s.root ≠ .directory) : s.keyNames.Gives t (.ok []) := by
  unfold Store.keyNames
  refine (Attempt.gives_presence _).bind ?_
  rw [if_pos h]
  exact Attempt.gives_pure _

theorem list_of_absent (h : t.presence s.root ≠ .directory) : s.list.Gives t (.ok []) :=
  (keyNames_of_absent h).bind (Attempt.gives_pure _)

end Store

end RepoSeal
