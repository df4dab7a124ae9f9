import RepoSeal.Proofs.Trees

/-!
# RepoSeal — routes through a tree

A path that is looked up is walked step by step, through directories and links. The way to what it
names is a walk of its own (`Goes`): along the whole path for a directory that it leads to (`Reaches`),
and up to the last part for an entry that is to be changed (`entry_of_lookup`). A way needs only the
directories and the links that it takes (`Goes.mono`).
-/

namespace RepoSeal

/-! ## Directories along a path -/

/-- A name that leads one step down, and that no path is refused for. -/
structure Path.IsStep (name : String) : Prop extends Path.IsPart name where
  not_up : name ≠ ".."
  no_nul : '\x00' ∉ name.toList

theorem Path.not_mem_join {p : Path} {name : String} (h : IsPart name) {c : Char} (hslash : c ≠ '/')
    (hp : c ∉ p.text.toList) (hname : c ∉ name.toList) : c ∉ (p / name).text.toList := by
  rcases join_cases p h with ⟨-, hjoin⟩ | ⟨a, hjoin, ha, -⟩
  · rwa [hjoin]
  · have hfront : c ∉ a.toList := by
      intro hmem
      apply hp
      rcases ha with ha | ha
      · rwa [ha]
      · rw [ha, String.toList_append]
        exact List.mem_append_left _ hmem
    rw [hjoin, String.toList_append, String.toList_append, List.mem_append, List.mem_append]
    rintro ((hmem | hmem) | hmem)
    · exact hfront hmem
    · exact hslash (List.mem_singleton.mp hmem)
    · exact hname hmem

namespace Tree

variable {t t' : Tree} {dir loc mid : Location} {purpose : Purpose} {links j k : Nat}
  {todo rest : List String} {p : Path} {name : String}

theorem Goes.append (h : Goes t links dir todo j mid) (h' : Goes t j mid rest k loc) :
    Goes t links dir (todo ++ rest) k loc := by
  induction h with
  | done => exact h'
  | slash h ih => exact .slash (ih h')
  | dot h ih => exact .dot (ih h')
  | up hne h ih => exact .up hne (ih h')
  | into hslash hdot hup hlen hfind h ih => exact .into hslash hdot hup hlen hfind (ih h')
  | follow hslash hdot hup hlen hfind htarget h ih =>
    have hgoes := ih h'
    rw [List.append_assoc] at hgoes
    exact .follow hslash hdot hup hlen hfind htarget hgoes

/-- Names of directories, each in the one before it, lead from the first to the last. -/
theorem goes_along {names : List String}
    (hnames : ∀ name ∈ names, name ≠ "/" ∧ name ≠ "." ∧ name ≠ ".." ∧
      name.utf8ByteSize ≤ maxNameLength)
    (hdirs : ∀ n < names.length, t.find? (dir ++ names.take (n + 1)) = some .directory) :
    Goes t k dir names k (dir ++ names) := by
  induction names generalizing dir with
  | nil =>
    rw [List.append_nil]
    exact .done _ _
  | cons name names ih =>
    obtain ⟨⟨hslash, hdot, hup, hlen⟩, hnames⟩ := List.forall_mem_cons.mp hnames
    have hrest : Goes t k (dir ++ [name]) names k (dir ++ [name] ++ names) :=
      ih hnames fun n hn => by
        rw [List.append_assoc]
        exact hdirs (n + 1) (Nat.succ_lt_succ hn)
    rw [List.append_assoc] at hrest
    exact .into hslash hdot hup hlen (hdirs 0 (Nat.succ_pos _)) hrest

/-- A walk that only looks ends where its steps lead. -/
theorem Goes.walk_use (h : Goes t links dir todo k loc) :
    t.walk .use links dir todo = .ok (.found loc .directory) := by
  induction h with
  | done => rw [walk]
  | slash h ih => rw [walk, ih]
  | dot h ih => simpa [walk] using ih
  | up hne h ih => simpa [walk, hne] using ih
  | into hslash hdot hup hlen hfind h ih =>
    rw [walk_name hslash hdot hup, if_neg (Nat.not_lt.mpr hlen), hfind]
    simpa using ih
  | follow hslash hdot hup hlen hfind htarget h ih =>
    rw [walk_name hslash hdot hup, if_neg (Nat.not_lt.mpr hlen), hfind]
    simpa [htarget] using ih

/-- One step more of a walk, or none. -/
theorem exists_goes_step {front : List String} {x : String} {more : List String}
    (htodo : front ++ rest = x :: more)
    (hstep : ∀ front', more = front' ++ rest → ∃ k loc, Goes t links dir (x :: front') k loc) :
    ∃ k loc, Goes t links dir front k loc := by
  cases front with
  | nil => exact ⟨links, dir, .done _ _⟩
  | cons y front' =>
    obtain ⟨rfl, hmore⟩ := List.cons.inj htodo
    exact hstep front' hmore.symm

/-- A walk that finds something goes along the front of its path. -/
theorem goes_of_walk_append {front : List String} {spot : Spot} (hrest : rest ≠ [])
    (h : t.walk .use links dir (front ++ rest) = .ok spot) : ∃ k loc, Goes t links dir front k loc := by
  generalize htodo : front ++ rest = todo at h
  fun_induction walk t .use links dir todo generalizing front with
  | case1 => exact absurd (List.append_eq_nil_iff.mp htodo).2 hrest
  | case2 links dir more ih =>
    refine exists_goes_step htodo fun front' hmore => ?_
    obtain ⟨k, loc, hgoes⟩ := ih hmore.symm h
    exact ⟨k, loc, .slash hgoes⟩
  | case4 links dir more _ ih =>
    refine exists_goes_step htodo fun front' hmore => ?_
    obtain ⟨k, loc, hgoes⟩ := ih hmore.symm h
    exact ⟨k, loc, .dot hgoes⟩
  | case7 links dir more _ hne ih =>
    refine exists_goes_step htodo fun front' hmore => ?_
    obtain ⟨k, loc, hgoes⟩ := ih hmore.symm h
    exact ⟨k, loc, .up (fun hnil => hne (List.isEmpty_iff.mpr hnil)) hgoes⟩
  | case12 links dir x more hslash hdot hup hlen _ hfind ih =>
    refine exists_goes_step htodo fun front' hmore => ?_
    obtain ⟨k, loc, hgoes⟩ := ih hmore.symm h
    exact ⟨k, loc, .into hslash hdot hup (Nat.le_of_not_lt hlen) hfind hgoes⟩
  | case17 dir x more hslash hdot hup hlen _ target hfind links htarget ih =>
    refine exists_goes_step htodo fun front' hmore => ?_
    rw [hmore, ← List.append_assoc] at h ih
    obtain ⟨k, loc, hgoes⟩ := ih rfl h
    exact ⟨k, loc, .follow hslash hdot hup (Nat.le_of_not_lt hlen) hfind
      (Bool.eq_false_iff.mpr htarget) hgoes⟩
  | case3 _ _ _ hlast => exact absurd hlast (by simp)
  | case5 _ _ _ hlast => exact absurd hlast (by simp)
  | case9 _ _ _ _ _ _ _ _ hlast => exact absurd hlast (by simp)
  | case10 links dir x more _ _ _ _ _ _ hlast =>
    -- what is found last has nothing behind it
    refine exists_goes_step htodo fun front' hmore => ?_
    rw [hmore, List.isEmpty_iff] at hlast
    exact absurd (List.append_eq_nil_iff.mp hlast).2 hrest
  | case13 links dir x more _ _ _ _ _ _ _ _ hlast =>
    refine exists_goes_step htodo fun front' hmore => ?_
    rw [hmore, List.isEmpty_iff] at hlast
    exact absurd (List.append_eq_nil_iff.mp hlast).2 hrest
  | _ => cases h

/-- A way whose last step is a name that no link has ends in a directory of that name. -/
theorem Goes.directory_of_concat {front : List String} (h : Goes t links dir (front ++ [name]) k loc)
    (hslash : name ≠ "/") (hdot : name ≠ ".") (hup : name ≠ "..")
    (hlink : ∀ above target, t.find? (above ++ [name]) ≠ some (.link target)) :
    ∃ above, loc = above ++ [name] := by
  have hwalk := h.walk_use
  obtain ⟨k', mid, hfront⟩ := goes_of_walk_append (List.cons_ne_nil _ _) hwalk
  have hlast : isLast [name] = false := by simp [isLast, hslash]
  rw [hfront.walk_append hlast, walk_name hslash hdot hup] at hwalk
  refine ⟨mid, ?_⟩
  split at hwalk
  · cases hwalk
  rw [if_neg (by simp)] at hwalk
  split at hwalk
  · cases hwalk
  · rw [walk] at hwalk
    cases hwalk
    rfl
  · cases hwalk
  · rename_i target hfind
    exact absurd hfind (hlink mid target)

/-- Where steps lead does not depend on how many links may be followed. -/
theorem Goes.walk_agrees (h : Goes t links dir todo k loc) {links' : Nat} {spot : Spot}
    (hwalk : t.walk .use links' dir todo = .ok spot) : spot = .found loc .directory := by
  induction h generalizing links' with
  | done =>
    rw [walk] at hwalk
    cases hwalk
    rfl
  | slash h ih =>
    rw [walk] at hwalk
    exact ih hwalk
  | dot h ih => exact ih (by simpa [walk] using hwalk)
  | up hne h ih => exact ih (by simpa [walk, hne] using hwalk)
  | into hslash hdot hup hlen hfind h ih =>
    rw [walk_name hslash hdot hup, if_neg (Nat.not_lt.mpr hlen), hfind] at hwalk
    exact ih (by simpa using hwalk)
  | follow hslash hdot hup hlen hfind htarget h ih =>
    rw [walk_name hslash hdot hup, if_neg (Nat.not_lt.mpr hlen), hfind] at hwalk
    cases links' with
    | zero => simp at hwalk
    | succ links' => exact ih (by simpa [htarget] using hwalk)

/-- A path that ends in a name, and whose steps lead to a directory. -/
structure Reaches (t : Tree) (p : Path) (loc : Location) : Prop where
  relative : p.isAbsolute = false
  ending_eq : p.ending = []
  no_nul : '\x00' ∉ p.text.toList
  goes : ∃ k, Goes t maxLinks [] p.parts k loc

theorem text_ne_empty_of_ending (h : p.ending = []) : p.text ≠ "" := by
  intro hempty
  rw [show p = Path.mk "" from congrArg Path.mk hempty] at h
  cases h

theorem lookup_eq_walk (hrel : p.isAbsolute = false) (hend : p.ending = [])
    (hnul : '\x00' ∉ p.text.toList) :
    t.lookup purpose p =
      if maxPathLength < p.text.utf8ByteSize then .error .nameTooLong
      else t.walk purpose maxLinks [] p.parts := by
  have hempty : p.text.isEmpty = false := by simpa using text_ne_empty_of_ending hend
  rw [lookup, if_neg (by simpa using hnul), if_neg (by simp [hrel, hempty]), steps, hend,
    List.append_nil]

theorem reaches_of_lookup (hend : p.ending = [])
    (h : t.lookup .use p = .ok (.found loc .directory)) :
    t.Reaches p loc ∧ p.text.utf8ByteSize ≤ maxPathLength := by
  unfold lookup at h
  split at h
  · cases h
  rename_i hnul
  split at h
  · cases h
  rename_i hrel
  split at h
  · cases h
  rename_i hlen
  have hgoes := goes_of_walk h
  rw [steps, hend, List.append_nil] at hgoes
  exact ⟨⟨by simp_all, hend, by simpa using hnul, hgoes⟩, Nat.le_of_not_lt hlen⟩

namespace Reaches

theorem grows (h : t.Reaches p loc) (hgrows : t.Grows t') : t'.Reaches p loc := by
  obtain ⟨k, hgoes⟩ := h.goes
  exact ⟨h.relative, h.ending_eq, h.no_nul, k, hgoes.grows hgrows⟩

theorem lookup (h : t.Reaches p loc) (hlen : p.text.utf8ByteSize ≤ maxPathLength) :
    t.lookup .use p = .ok (.found loc .directory) := by
  obtain ⟨k, hgoes⟩ := h.goes
  rw [lookup_eq_walk h.relative h.ending_eq h.no_nul, if_neg (Nat.not_lt.mpr hlen), hgoes.walk_use]

theorem part_le (h : t.Reaches p loc) : ∀ part ∈ p.parts, part.utf8ByteSize ≤ maxNameLength := by
  obtain ⟨k, hgoes⟩ := h.goes
  exact hgoes.name_le

/-- A path goes on through a directory in the one that it leads to. -/
theorem join (h : t.Reaches p loc) (hname : Path.IsStep name)
    (hlen : name.utf8ByteSize ≤ maxNameLength) (hdir : t.find? (loc ++ [name]) = some .directory) :
    t.Reaches (p / name) (loc ++ [name]) := by
  obtain ⟨k, hgoes⟩ := h.goes
  have hpart := hname.toIsPart
  refine ⟨(p.isAbsolute_join hpart).trans h.relative, p.ending_join hpart,
    p.not_mem_join hpart (by decide) h.no_nul hname.no_nul, k, ?_⟩
  rw [p.parts_join hpart]
  exact hgoes.append
    (.into (ne_slash_of_isPart hpart) hpart.ne_dot hname.not_up hlen hdir (.done k _))

end Reaches

theorem presence_eq_directory :
    t.presence p = .directory ↔ ∃ loc, t.lookup .use p = .ok (.found loc .directory) := by
  constructor
  · intro h
    unfold presence at h
    split at h
    · rename_i loc hlookup
      exact ⟨loc, hlookup⟩
    · cases h
    · cases h
  · rintro ⟨loc, hlookup⟩
    rw [presence, hlookup]

/-- A directory is still found in a tree with the same directories and links. -/
theorem lookup_directory_mono
    (hdirs : ∀ at_, t.find? at_ = some .directory → t'.find? at_ = some .directory)
    (hlinks : ∀ at_ target, t.find? at_ = some (.link target) → t'.find? at_ = some (.link target))
    (h : t.lookup .use p = .ok (.found loc .directory)) :
    t'.lookup .use p = .ok (.found loc .directory) := by
  unfold lookup at h ⊢
  split at h
  · cases h
  rename_i hnul
  split at h
  · cases h
  rename_i hrel
  split at h
  · cases h
  rename_i hlen
  obtain ⟨k, hgoes⟩ := goes_of_walk h
  rw [if_neg hnul, if_neg hrel, if_neg hlen, (hgoes.mono hdirs hlinks).walk_use]

/-! ## What a path leads to -/

/-- A file that is found lies in the tree. -/
theorem find?_of_walk_file {content : Bytes} {mode : Nat}
    (h : t.walk .use links dir todo = .ok (.found loc (.file content mode))) :
    t.find? loc = some (.file content mode) := by
  fun_induction walk t .use links dir todo with
  | case2 links dir rest ih => exact ih h
  | case4 links dir rest _ ih => exact ih h
  | case7 links dir rest _ hne ih => exact ih h
  | case12 links dir x rest hslash hdot hup hlen _ hfind ih => exact ih h
  | case13 links dir x rest hslash hdot hup hlen _ content mode hfind hlast =>
    cases h
    exact hfind
  | case17 dir x rest hslash hdot hup hlen _ target hfind links htarget ih => exact ih h
  | _ => cases h

theorem find?_of_lookup_file {content : Bytes} {mode : Nat}
    (h : t.lookup .use p = .ok (.found loc (.file content mode))) :
    t.find? loc = some (.file content mode) := by
  unfold lookup at h
  split at h
  · cases h
  split at h
  · cases h
  split at h
  · cases h
  exact find?_of_walk_file h

/-- What a path leads to is still there in a tree that has more. -/
theorem Grows.walk_found {node : Node} (hgrows : t.Grows t')
    (h : t.walk .use links dir todo = .ok (.found loc node)) :
    t'.walk .use links dir todo = .ok (.found loc node) := by
  fun_induction walk t .use links dir todo with
  | case1 =>
    rw [walk]
    exact h
  | case2 links dir rest ih =>
    rw [walk]
    exact ih h
  | case4 links dir rest _ ih => simpa [walk] using ih h
  | case7 links dir rest _ hne ih => simpa [walk, hne] using ih h
  | case12 links dir x rest hslash hdot hup hlen _ hfind ih =>
    rw [walk_name hslash hdot hup, if_neg hlen, hgrows _ _ hfind]
    simpa using ih h
  | case13 links dir x rest hslash hdot hup hlen _ content mode hfind hlast =>
    rw [walk_name hslash hdot hup, if_neg hlen, hgrows _ _ hfind]
    simpa [hlast] using h
  | case17 dir x rest hslash hdot hup hlen _ target hfind links htarget ih =>
    rw [walk_name hslash hdot hup, if_neg hlen, hgrows _ _ hfind]
    simpa [htarget] using ih h
  | _ => simp at h

theorem Grows.lookup_found {node : Node} (hgrows : t.Grows t')
    (h : t.lookup .use p = .ok (.found loc node)) : t'.lookup .use p = .ok (.found loc node) := by
  unfold lookup at h ⊢
  split at h
  · cases h
  rename_i hnul
  split at h
  · cases h
  rename_i hrel
  split at h
  · cases h
  rename_i hlen
  rw [if_neg hnul, if_neg hrel, if_neg hlen, hgrows.walk_found h]

theorem contentsAt_eq_ok {b : Bytes} :
    t.contentsAt p = .ok b ↔ ∃ loc mode, t.lookup .use p = .ok (.found loc (.file b mode)) := by
  constructor
  · intro h
    unfold contentsAt at h
    split at h
    · cases h
    · rename_i loc content mode hlookup
      cases h
      exact ⟨loc, mode, hlookup⟩
    · cases h
    · cases h
  · rintro ⟨loc, mode, hlookup⟩
    rw [contentsAt, hlookup]

/-- A file is still read in a tree that has more. -/
theorem Grows.contentsAt {b : Bytes} (hgrows : t.Grows t') (h : t.contentsAt p = .ok b) :
    t'.contentsAt p = .ok b := by
  obtain ⟨loc, mode, hlookup⟩ := contentsAt_eq_ok.mp h
  exact contentsAt_eq_ok.mpr ⟨loc, mode, hgrows.lookup_found hlookup⟩

/-! ## The way to an entry -/

/-- Steps that lead to an entry of a directory: the way to the directory, the name of the entry, and
slashes. -/
structure LeadsTo (t : Tree) (links : Nat) (dir : Location) (todo : List String) (loc : Location)
    (name : String) (slash : Bool) : Prop where
  ne_slash : name ≠ "/"
  ne_dot : name ≠ "."
  ne_up : name ≠ ".."
  length_le : name.utf8ByteSize ≤ maxNameLength
  way : ∃ front rest k, todo = front ++ name :: rest ∧ isLast rest = true ∧
    slash = !rest.isEmpty ∧ Goes t links dir front k loc

/-- One step more in front of the way. -/
theorem LeadsTo.step {slash : Bool} {x : String} {links' : Nat} {dir' : Location}
    {todo' : List String} (more : List String)
    (h : LeadsTo t links' dir' (more ++ todo') loc name slash)
    (hmore : isLast todo' = false ∨ more = [])
    (hstep : ∀ {front : List String} {k : Nat}, Goes t links' dir' (more ++ front) k loc →
      Goes t links dir (x :: front) k loc) :
    LeadsTo t links dir (x :: todo') loc name slash := by
  obtain ⟨hslash, hdot, hup, hlen, front, rest, k, htodo, hlast, hflag, hgoes⟩ := h
  refine ⟨hslash, hdot, hup, hlen, ?_⟩
  -- the name stands in what is left of the path, for only slashes stand behind it
  have hfront : ∃ front', front = more ++ front' ∧ todo' = front' ++ name :: rest := by
    rcases List.append_eq_append_iff.mp htodo with ⟨mid, hmid, hrest⟩ | ⟨mid, hmid, hrest⟩
    · exact ⟨mid, hmid, hrest⟩
    · cases mid with
      | nil =>
        rw [List.append_nil] at hmid
        exact ⟨[], by rw [hmid, List.append_nil], hrest.symm⟩
      | cons y mid =>
        rw [List.cons_append, List.cons.injEq] at hrest
        rcases hmore with hopen | hnil
        · rw [hrest.2, isLast_append, hopen, Bool.and_false] at hlast
          cases hlast
        · rw [hnil] at hmid
          exact absurd hmid.symm (List.append_ne_nil_of_right_ne_nil _ (List.cons_ne_nil _ _))
  obtain ⟨front', rfl, rfl⟩ := hfront
  exact ⟨x :: front', rest, k, rfl, hlast, hflag, hstep hgoes⟩

/-- A walk to an entry follows the way to its directory. -/
theorem leadsTo_of_walk {slash : Bool}
    (h : t.walk .change links dir todo = .ok (.entry loc name slash)) :
    LeadsTo t links dir todo loc name slash := by
  fun_induction walk t .change links dir todo with
  | case2 links dir rest ih => exact .step [] (ih h) (.inr rfl) .slash
  | case4 links dir rest _ ih => exact .step [] (ih h) (.inr rfl) .dot
  | case7 links dir rest _ hne ih =>
    exact .step [] (ih h) (.inr rfl) (.up fun hnil => hne (List.isEmpty_iff.mpr hnil))
  | case9 links dir x rest hslash hdot hup hlen hlast =>
    -- the last name of all is the entry's
    cases h
    have hlast : isLast rest = true := by simpa using hlast
    exact ⟨hslash, hdot, hup, Nat.le_of_not_lt hlen, [], rest, links, rfl, hlast, rfl, .done _ _⟩
  | case12 links dir x rest hslash hdot hup hlen _ hfind ih =>
    exact .step [] (ih h) (.inr rfl) (.into hslash hdot hup (Nat.le_of_not_lt hlen) hfind)
  | case17 dir x rest hslash hdot hup hlen hlast target hfind links htarget ih =>
    have hopen : isLast rest = false := by simpa using hlast
    exact .step (steps target) (ih h) (.inl hopen)
      (.follow hslash hdot hup (Nat.le_of_not_lt hlen) hfind (Bool.eq_false_iff.mpr htarget))
  | _ => cases h

theorem ending_cases (p : Path) : p.ending = [] ∨ p.ending = ["/"] ∨ p.ending = ["."] := by
  unfold Path.ending
  split
  · split <;> simp
  · simp
  · simp

/-- A path that names an entry of a directory, with the way to the directory. -/
structure NamesEntry (t : Tree) (p : Path) (dir : Location) (name : String) : Prop where
  relative : p.isAbsolute = false
  ending_eq : p.ending = []
  no_nul : '\x00' ∉ p.text.toList
  length_le : p.text.utf8ByteSize ≤ maxPathLength
  ne_slash : name ≠ "/"
  ne_dot : name ≠ "."
  ne_up : name ≠ ".."
  name_le : name.utf8ByteSize ≤ maxNameLength
  way : ∃ front k, p.parts = front ++ [name] ∧ Goes t maxLinks [] front k dir

theorem namesEntry_of_lookup (h : t.lookup .change p = .ok (.entry dir name false)) :
    t.NamesEntry p dir name := by
  unfold lookup at h
  split at h
  · cases h
  rename_i hnul
  split at h
  · cases h
  rename_i hrel
  split at h
  · cases h
  rename_i hlen
  obtain ⟨hslash, hdot, hup, hname, front, rest, k, htodo, -, hflag, hgoes⟩ := leadsTo_of_walk h
  have hrest : rest = [] := by simpa using hflag
  rw [hrest, steps] at htodo
  -- what stands behind the last part is a step of its own, and the name is none of those
  have hend : p.ending = [] := by
    rcases ending_cases p with hend | hend | hend
    · exact hend
    · rw [hend] at htodo
      exact absurd (List.singleton_inj.mp (List.append_inj' htodo rfl).2).symm hslash
    · rw [hend] at htodo
      exact absurd (List.singleton_inj.mp (List.append_inj' htodo rfl).2).symm hdot
  rw [hend, List.append_nil] at htodo
  rw [Bool.not_eq_true, Bool.or_eq_false_iff] at hrel
  exact ⟨hrel.2, hend, by simpa using hnul, Nat.le_of_not_lt hlen, hslash, hdot, hup, hname,
    front, k, htodo, hgoes⟩

namespace NamesEntry

theorem lookup_eq (h : t.NamesEntry p dir name) :
    ∃ k, ∀ purpose, t.lookup purpose p = t.walk purpose k dir [name] := by
  obtain ⟨front, k, hparts, hgoes⟩ := h.way
  have hlast : isLast [name] = false := by simp [isLast, h.ne_slash]
  refine ⟨k, fun purpose => ?_⟩
  rw [lookup_eq_walk h.relative h.ending_eq h.no_nul, if_neg (Nat.not_lt.mpr h.length_le), hparts,
    hgoes.walk_append hlast]

theorem lookup_change (h : t.NamesEntry p dir name) :
    t.lookup .change p = .ok (.entry dir name false) := by
  obtain ⟨k, hlookup⟩ := h.lookup_eq
  rw [hlookup, walk_name h.ne_slash h.ne_dot h.ne_up, if_neg (Nat.not_lt.mpr h.name_le)]
  rfl

/-- A file that a path names is what the path leads to. -/
theorem contentsAt (h : t.NamesEntry p dir name) {content : Bytes} {mode : Nat}
    (hfile : t.find? (dir ++ [name]) = some (.file content mode)) : t.contentsAt p = .ok content := by
  obtain ⟨k, hlookup⟩ := h.lookup_eq
  rw [Tree.contentsAt, hlookup, walk_name h.ne_slash h.ne_dot h.ne_up,
    if_neg (Nat.not_lt.mpr h.name_le), hfile]
  rfl

theorem presence_of_none (h : t.NamesEntry p dir name) (hnone : t.find? (dir ++ [name]) = none) :
    t.presence p = .absent := by
  obtain ⟨k, hlookup⟩ := h.lookup_eq
  rw [presence, hlookup, walk_name h.ne_slash h.ne_dot h.ne_up, if_neg (Nat.not_lt.mpr h.name_le),
    hnone]
  rfl

/-- The same path in another tree, where the way leads elsewhere. -/
theorem of_goes (h : t.NamesEntry p dir name) {front : List String} {k : Nat}
    (hparts : p.parts = front ++ [name]) (hgoes : Goes t' maxLinks [] front k loc) :
    t'.NamesEntry p loc name :=
  ⟨h.relative, h.ending_eq, h.no_nul, h.length_le, h.ne_slash, h.ne_dot, h.ne_up, h.name_le, front, k,
    hparts, hgoes⟩

theorem unique {dir' : Location} {name' : String} (h : t.NamesEntry p dir name)
    (h' : t.NamesEntry p dir' name') : dir' = dir ∧ name' = name := by
  have hlookup := h'.lookup_change
  rw [h.lookup_change] at hlookup
  cases hlookup
  exact ⟨rfl, rfl⟩

end NamesEntry

/-- A path names the entries of the directory that it leads to. -/
theorem Reaches.namesEntry (h : t.Reaches p loc) (hname : Path.IsStep name)
    (hlen : name.utf8ByteSize ≤ maxNameLength)
    (hfits : (p / name).text.utf8ByteSize ≤ maxPathLength) : t.NamesEntry (p / name) loc name := by
  obtain ⟨k, hgoes⟩ := h.goes
  have hpart := hname.toIsPart
  exact ⟨(p.isAbsolute_join hpart).trans h.relative, p.ending_join hpart,
    p.not_mem_join hpart (by decide) h.no_nul hname.no_nul, hfits, ne_slash_of_isPart hpart,
    hpart.ne_dot, hname.not_up, hlen, p.parts, k, p.parts_join hpart, hgoes⟩

end Tree

end RepoSeal
