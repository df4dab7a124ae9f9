import RepoSeal.Proofs.Plans
import RepoSeal.Proofs.Routes

/-!
# RepoSeal — what changes in a tree

Making directories adds directories where nothing was (`Widens`), and putting a file changes what lies
at one location (`replaceFile_eq_ok`). A file that was put at a path is found there again, unless the way
to its directory led through a link in whose place it was put (`OwnPlace`); and nothing else is found
there (`eq_of_contentsAt_replaceFile`).
-/

namespace RepoSeal.Tree

variable {t t' t'' : Tree} {p : Path} {dir loc mid : Location} {name : String} {content b : Bytes}
  {links k : Nat} {todo : List String}

/-! ## Directories -/

/-- A tree with more directories, and nothing else that is different. -/
def Widens (t t' : Tree) : Prop :=
  ∀ loc, t'.find? loc = t.find? loc ∨ t.find? loc = none ∧ t'.find? loc = some .directory

namespace Widens

theorem refl (t : Tree) : t.Widens t := fun _ => .inl rfl

theorem trans (h : t.Widens t') (h' : t'.Widens t'') : t.Widens t'' := by
  intro loc
  rcases h' loc with hsame' | ⟨hnone', hdir'⟩
  · rw [hsame']
    exact h loc
  · rcases h loc with hsame | ⟨-, hdir⟩
    · rw [hsame] at hnone'
      exact .inr ⟨hnone', hdir'⟩
    · rw [hnone'] at hdir
      cases hdir

theorem grows (h : t.Widens t') : t.Grows t' := by
  intro loc node hnode
  rcases h loc with hsame | ⟨hnone, -⟩
  · rw [hsame, hnode]
  · rw [hnone] at hnode
    cases hnode

/-- Files and links are the same as before. -/
theorem find?_iff (h : t.Widens t') {node : Node} (hnode : node ≠ .directory) :
    t'.find? loc = some node ↔ t.find? loc = some node := by
  refine ⟨fun hnew => ?_, h.grows loc node⟩
  rcases h loc with hsame | ⟨-, hdir⟩
  · rwa [← hsame]
  · rw [hdir] at hnew
    exact absurd (Option.some.inj hnew).symm hnode

end Widens

theorem widens_makeDirectory (h : t.makeDirectory p = .ok t') : t.Widens t' := by
  unfold makeDirectory at h
  split at h
  · cases h
  · rename_i dir name slash _
    split at h
    · cases h
    · rename_i hfree
      cases h
      have hnone : t.find? (dir ++ [name]) = none := by simpa using hfree
      intro loc
      rw [find?_put]
      by_cases hloc : loc = dir ++ [name]
      · rw [if_pos hloc, hloc]
        exact .inr ⟨hnone, rfl⟩
      · rw [if_neg hloc]
        exact .inl rfl
  · cases h

theorem widens_makeDirectoriesOn (t : Tree) (here : Path) (parts : List String) :
    t.Widens (t.makeDirectoriesOn here parts).2 := by
  fun_induction makeDirectoriesOn t here parts with
  | case1 => exact .refl t
  | case2 here parts _ t' hmake => exact widens_makeDirectory hmake
  | case3 here parts _ fault _ _ fault' t' hon ih =>
    rw [hon] at ih
    exact ih
  | case4 here parts _ fault _ _ _ t' hon t'' hmake ih =>
    -- the directories on the way, and then the last one
    rw [hon] at ih
    exact ih.trans (widens_makeDirectory hmake)
  | case5 here parts _ fault _ _ _ t' hon fault' _ _ ih =>
    rw [hon] at ih
    exact ih
  | case6 here parts _ fault _ _ _ t' hon fault' _ _ ih =>
    rw [hon] at ih
    exact ih
  | case7 => exact .refl t
  | case8 => exact .refl t

theorem widens_makeDirectories (t : Tree) (p : Path) : t.Widens (t.makeDirectories p).2 := by
  unfold makeDirectories
  split
  · exact .refl t
  · exact widens_makeDirectoriesOn t p p.parts

/-- A directory that is there is not made again. -/
theorem makeDirectory_of_presence (hend : p.ending = []) (hne : p.parts ≠ [])
    (h : t.presence p = .directory) : t.makeDirectory p = .error .alreadyExists := by
  obtain ⟨loc, hlookup⟩ := presence_eq_directory.mp h
  obtain ⟨hreaches, hlen⟩ := reaches_of_lookup hend hlookup
  obtain ⟨k, hgoes⟩ := hreaches.goes
  obtain ⟨front, last, hparts⟩ : ∃ front last, p.parts = front ++ [last] :=
    ⟨_, _, (List.dropLast_append_getLast hne).symm⟩
  have hpart : Path.IsPart last := Path.isPart_of_mem_parts (p := p) (by simp [hparts])
  have hslash := ne_slash_of_isPart hpart
  have hlast : isLast [last] = false := by simp [isLast, hslash]
  have hwalk := hgoes.walk_use
  rw [hparts] at hwalk
  obtain ⟨j, mid, hfront⟩ := goes_of_walk_append (List.cons_ne_nil _ _) hwalk
  rw [hfront.walk_append hlast] at hwalk
  rw [makeDirectory, lookup_eq_walk hreaches.relative hend hreaches.no_nul,
    if_neg (Nat.not_lt.mpr hlen), hparts, hfront.walk_append hlast]
  by_cases hup : last = ".."
  · rw [hup, walk]
    rfl
  · rw [walk_name hslash hpart.ne_dot hup] at hwalk ⊢
    split at hwalk
    · cases hwalk
    rename_i hname
    rw [if_neg hname, if_pos (by simp [isLast])]
    -- what the walk goes through is an entry that is there
    cases hfind : t.find? (mid ++ [last]) with
    | none => simp [hfind] at hwalk
    | some node => simp [hfind]

theorem makeDirectories_of_presence (hend : p.ending = []) (h : t.presence p = .directory) :
    t.makeDirectories p = (.ok (), t) := by
  obtain ⟨loc, hlookup⟩ := presence_eq_directory.mp h
  obtain ⟨hreaches, -⟩ := reaches_of_lookup hend hlookup
  rw [makeDirectories, hreaches.relative, Bool.false_and, if_neg Bool.false_ne_true,
    makeDirectoriesOn]
  by_cases hne : p.parts = []
  · rw [dif_pos hne]
  · rw [dif_neg hne, makeDirectory_of_presence hend hne h]
    dsimp only
    rw [if_neg (by decide), if_pos h]

/-! ## Files -/

/-- A file is put at the entry that a path names, which is no directory, in a directory that is there. -/
theorem replaceFile_eq_ok :
    t.replaceFile p content = .ok t' ↔
      t.presence (holderOf p) = .directory ∧ ∃ dir name, t.NamesEntry p dir name ∧
        t.find? (dir ++ [name]) ≠ some .directory ∧
        t' = t.put (dir ++ [name]) (.file content privateMode) := by
  constructor
  · intro h
    unfold replaceFile at h
    split at h
    · cases h
    · cases h
    · rename_i hholder
      split at h
      · cases h
      · rename_i dir name slash hlookup
        split at h
        · cases h
        · rename_i hslash
          split at h
          · cases h
          · rename_i hfree
            cases h
            rw [Bool.not_eq_true] at hslash
            subst hslash
            exact ⟨hholder, dir, name, namesEntry_of_lookup hlookup, hfree, rfl⟩
      · cases h
  · rintro ⟨hholder, dir, name, hentry, hfree, rfl⟩
    rw [replaceFile, hholder]
    dsimp only
    rw [hentry.lookup_change]
    dsimp only
    rw [if_neg Bool.false_ne_true, if_neg hfree]

/-- A file can be put at a path, once the missing directories on the way have been made. -/
def Writable (t : Tree) (p : Path) : Prop :=
  (t.makeDirectories (holderOf p)).1 = .ok () ∧
    ∃ content t', (t.makeDirectories (holderOf p)).2.replaceFile p content = .ok t'

/-- Any file that is put at a path comes to lie at a location, and the directories on the way are there. -/
structure Accepts (t : Tree) (p : Path) (loc : Location) : Prop where
  made : t.makeDirectories (holderOf p) = (.ok (), t)
  put : ∀ content, t.replaceFile p content = .ok (t.put loc (.file content privateMode))

theorem Accepts.writable (h : t.Accepts p loc) : t.Writable p := by
  unfold Writable
  rw [h.made]
  exact ⟨rfl, [], _, h.put []⟩

/-- A directory that a path leads to accepts files with names that fit. -/
theorem Reaches.accepts {q : Path} (h : t.Reaches q loc) (hp : q / name = p) (hne : q.parts ≠ [])
    (hname : Path.IsStep name) (hlen : name.utf8ByteSize ≤ maxNameLength)
    (hfits : p.text.utf8ByteSize ≤ maxPathLength)
    (hfree : t.find? (loc ++ [name]) ≠ some .directory) : t.Accepts p (loc ++ [name]) := by
  subst hp
  have hpart := hname.toIsPart
  have hparent := Path.parent_join h.ending_eq hpart
  have hholder : holderOf (q / name) = q :=
    (Path.holderOf_eq (q.parts_join hpart) hne).trans hparent
  have hqfits : q.text.utf8ByteSize ≤ maxPathLength := by
    rw [← hparent]
    exact (Path.utf8ByteSize_le_of_sublist (Path.isPrefix_parent _).sublist).trans hfits
  have hthere : t.presence q = .directory := presence_eq_directory.mpr ⟨loc, h.lookup hqfits⟩
  refine ⟨hholder.symm ▸ makeDirectories_of_presence h.ending_eq hthere, fun content => ?_⟩
  exact replaceFile_eq_ok.mpr
    ⟨hholder.symm ▸ hthere, loc, name, h.namesEntry hname hlen hfits, hfree, rfl⟩

/-- The way to the directory of a path does not lead through what lies at the path. -/
def OwnPlace (t : Tree) (p : Path) : Prop :=
  ∀ dir name, t.NamesEntry p dir name →
    (t.remove (dir ++ [name])).presence (holderOf p) = .directory

/-- Where the holder of a path can be reached, the way to its directory is there. -/
theorem NamesEntry.of_presence (h : t.NamesEntry p dir name) (hgrows : t'.Grows t)
    (hholder : t'.presence (holderOf p) = .directory) : t'.NamesEntry p dir name := by
  obtain ⟨front, k, hparts, hgoes⟩ := h.way
  by_cases hfront : front = []
  · -- the entry lies where every walk begins
    subst hfront
    cases hgoes
    exact h.of_goes hparts (.done _ _)
  · rw [Path.holderOf_eq hparts hfront] at hholder
    obtain ⟨loc, hlookup⟩ := presence_eq_directory.mp hholder
    obtain ⟨hreaches, -⟩ := reaches_of_lookup (Path.ending_parent hparts hfront) hlookup
    obtain ⟨k', hgoes'⟩ := hreaches.goes
    rw [Path.parts_parent hparts] at hgoes'
    -- the same steps lead to the same place in both trees
    have hsame : loc = dir := (h.unique (h.of_goes hparts (hgoes'.grows hgrows))).1
    exact h.of_goes hparts (hsame ▸ hgoes')

theorem grows_remove_put (t : Tree) (dir : Location) (name : String) (node : Node) :
    (t.remove (dir ++ [name])).Grows (t.put (dir ++ [name]) node) := by
  intro loc old hold
  rw [find?_remove] at hold
  split at hold
  · cases hold
  · rename_i hloc
    rw [find?_put, if_neg hloc]
    exact hold

theorem remove_grows (t : Tree) (dir : Location) (name : String) :
    (t.remove (dir ++ [name])).Grows t := by
  intro loc old hold
  rw [find?_remove] at hold
  split at hold
  · cases hold
  · exact hold

/-- A file that was put in a place of its own is found there. -/
theorem contentsAt_replaceFile (h : t.replaceFile p content = .ok t') (hown : t.OwnPlace p) :
    t'.contentsAt p = .ok content := by
  obtain ⟨-, dir, name, hentry, -, rfl⟩ := replaceFile_eq_ok.mp h
  have hleft := hentry.of_presence (t.remove_grows dir name) (hown dir name hentry)
  obtain ⟨front, k, hparts, hgoes⟩ := hleft.way
  have hput := hleft.of_goes hparts
    (hgoes.grows (t.grows_remove_put dir name (.file content privateMode)))
  have hfile : (t.put (dir ++ [name]) (.file content privateMode)).find? (dir ++ [name]) =
      some (.file content privateMode) := by rw [find?_put, if_pos rfl]
  exact hput.contentsAt hfile

/-- What can be read at a path after a file was put there is that file. -/
theorem eq_of_contentsAt_replaceFile (h : t.replaceFile p content = .ok t')
    (hread : t'.contentsAt p = .ok b) : b = content := by
  obtain ⟨-, dir, name, hentry, -, rfl⟩ := replaceFile_eq_ok.mp h
  obtain ⟨front, k, hparts, -⟩ := hentry.way
  have hfile : (t.put (dir ++ [name]) (.file content privateMode)).find? (dir ++ [name]) =
      some (.file content privateMode) := by rw [find?_put, if_pos rfl]
  -- the way in the new tree goes through nothing that was put
  have hway : ∃ k loc, Goes (t.put (dir ++ [name]) (.file content privateMode)) maxLinks [] front
      k loc := by
    unfold contentsAt at hread
    rw [lookup_eq_walk hentry.relative hentry.ending_eq hentry.no_nul,
      if_neg (Nat.not_lt.mpr hentry.length_le), hparts] at hread
    cases hwalk : (t.put (dir ++ [name]) (.file content privateMode)).walk .use maxLinks []
        (front ++ [name]) with
    | error fault =>
      rw [hwalk] at hread
      cases hread
    | ok spot => exact goes_of_walk_append (List.cons_ne_nil _ _) hwalk
  obtain ⟨k', loc, hgoes⟩ := hway
  have hold : Goes t maxLinks [] front k' loc := by
    refine hgoes.mono (fun at_ hat => ?_) fun at_ target hat => ?_
    · rw [find?_put] at hat
      split at hat
      · cases hat
      · exact hat
    · rw [find?_put] at hat
      split at hat
      · cases hat
      · exact hat
  have hsame : loc = dir := (hentry.unique (hentry.of_goes hparts hold)).1
  have hnew := (hentry.of_goes hparts (hsame ▸ hgoes)).contentsAt hfile
  rw [hread] at hnew
  exact Except.ok.inj hnew

/-! ## Places of their own -/

/-- A way goes through what lies at a location, or is there without it too. -/
theorem Goes.remove_or (h : Goes t links dir todo k loc) (above : Location) (name : String) :
    Goes (t.remove (above ++ [name])) links dir todo k loc ∨
      t.find? (above ++ [name]) = some .directory ∨
      ∃ target links' rest, t.find? (above ++ [name]) = some (.link target) ∧
        Goes t links' above (steps target ++ rest) k loc := by
  induction h with
  | done => exact .inl (.done _ _)
  | slash h ih => exact ih.imp_left .slash
  | dot h ih => exact ih.imp_left .dot
  | up hne h ih => exact ih.imp_left (.up hne)
  | @into links k dir loc x rest hslash hdot hup hlen hfind h ih =>
    by_cases hhere : dir ++ [x] = above ++ [name]
    · exact .inr (.inl (hhere ▸ hfind))
    · refine ih.imp_left (.into hslash hdot hup hlen ?_)
      rw [find?_remove, if_neg hhere, hfind]
  | @follow links k dir loc x rest target hslash hdot hup hlen hfind htarget h ih =>
    by_cases hhere : dir ++ [x] = above ++ [name]
    · refine .inr (.inr ⟨target, links, rest, hhere ▸ hfind, ?_⟩)
      rwa [← (List.append_inj' hhere rfl).1]
    · refine ih.imp_left (.follow hslash hdot hup hlen ?_ htarget)
      rw [find?_remove, if_neg hhere, hfind]

theorem presence_here (t : Tree) : t.presence ⟨"."⟩ = .directory := by
  have hlookup : t.lookup .use ⟨"."⟩ = t.walk .use maxLinks [] ["."] := rfl
  rw [presence, hlookup, walk, walk]
  rfl

/-- Where a file is read, no way to a directory goes through what lies there. -/
theorem NamesEntry.goes_remove (h : t.NamesEntry p dir name)
    (hread : t.contentsAt p = .ok b) (hgoes : Goes t links loc todo k mid) :
    Goes (t.remove (dir ++ [name])) links loc todo k mid := by
  obtain ⟨j, hlookup⟩ := h.lookup_eq
  rw [Tree.contentsAt, hlookup, walk_name h.ne_slash h.ne_dot h.ne_up,
    if_neg (Nat.not_lt.mpr h.name_le)] at hread
  rcases hgoes.remove_or dir name with hfree | hdir | ⟨target, links', rest, hlink, hthrough⟩
  · exact hfree
  · simp [hdir, walk] at hread
  · -- the link leads to a file, so it does not lead to a directory
    have hfront : ∃ k loc, Goes t links' dir (steps target) k loc := by
      by_cases hrest : rest = []
      · rw [hrest, List.append_nil] at hthrough
        exact ⟨_, _, hthrough⟩
      · exact goes_of_walk_append hrest hthrough.walk_use
    obtain ⟨_, _, hfront⟩ := hfront
    cases j with
    | zero => simp [hlink] at hread
    | succ j =>
      by_cases htarget : (target.isAbsolute || target.text.isEmpty) = true
      · simp [hlink, htarget] at hread
      · cases hwalk : t.walk .use j dir (steps target) with
        | error fault => simp [hlink, htarget, hwalk] at hread
        | ok spot =>
          rw [hfront.walk_agrees hwalk] at hwalk
          simp [hlink, htarget, hwalk] at hread

/-- A path at which a file is read has a place of its own. -/
theorem ownPlace_of_contentsAt (hholder : t.presence (holderOf p) = .directory)
    (hread : t.contentsAt p = .ok b) : t.OwnPlace p := by
  intro dir name hentry
  obtain ⟨front, k, hparts, -⟩ := hentry.way
  by_cases hfront : front = []
  · subst hfront
    have hhere : holderOf p = ⟨"."⟩ := by
      rw [holderOf, hparts]
      exact if_neg (Bool.eq_false_iff.mp hentry.relative)
    rw [hhere]
    exact presence_here _
  · rw [Path.holderOf_eq hparts hfront] at hholder ⊢
    obtain ⟨loc, hlookup⟩ := presence_eq_directory.mp hholder
    obtain ⟨hreaches, hlen⟩ := reaches_of_lookup (Path.ending_parent hparts hfront) hlookup
    obtain ⟨k', hgoes⟩ := hreaches.goes
    have hleft : (t.remove (dir ++ [name])).Reaches p.parent loc :=
      ⟨hreaches.relative, hreaches.ending_eq, hreaches.no_nul, k', hentry.goes_remove hread hgoes⟩
    exact presence_eq_directory.mpr ⟨loc, hleft.lookup hlen⟩

end RepoSeal.Tree
