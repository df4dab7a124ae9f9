import RepoSeal.Proofs.AllKeys
import RepoSeal.Proofs.Migration

/-!
# RepoSeal — a directory that receives keys

Files that are put in one directory share the way to it. Where that way leads through a link in a place
that a file is put in, the file is in the way from then on (`Receives.blocked_put`); where it does not,
putting the file leaves the way, and the places of the others, as they were (`Receives.put`,
`Reaches.remove_put`). The two cases are told apart by the way in the tree without that place: ways along
the same steps take just nodes that all their trees have (`Goes.meet`). Of the key files that are put
under one name the last is found (`find?_withKeys`).
-/

namespace RepoSeal

namespace Tree

variable {t t' : Tree} {dir : Path} {loc : Location} {name : String} {names : List String}

theorem NamesEntry.gives_loadFrom {p : Path} {at_ : Location} {kf : KeyFile} {mode : Nat}
    (h : t.NamesEntry p at_ name) (hfind : t.find? (at_ ++ [name]) = some (.file kf.encode mode)) :
    (KeyFile.loadFrom p).Gives t (.ok kf) := by
  have hload := KeyFile.gives_loadFrom (h.contentsAt hfind)
  rwa [KeyFile.loaded_of_magic kf.magic_prefix_encode, KeyFile.decode_encode] at hload

/-! ## Ways that two parts of a tree share -/

theorem Goes.unique {links k k' : Nat} {here loc loc' : Location} {todo : List String}
    (h : Goes t links here todo k loc) (h' : Goes t links here todo k' loc') : loc' = loc := by
  have hwalk := h'.walk_use
  rw [h.walk_use] at hwalk
  cases hwalk
  rfl

/-- A walk to a directory goes through what lies at its first name. -/
theorem exists_of_walk_name {links : Nat} {here : Location} {rest : List String}
    (hslash : name ≠ "/") (hdot : name ≠ ".") (hup : name ≠ "..")
    (hlen : name.utf8ByteSize ≤ maxNameLength)
    (h : t.walk .use links here (name :: rest) = .ok (.found loc .directory)) :
    ∃ node, t.find? (here ++ [name]) = some node := by
  rw [walk_name hslash hdot hup, if_neg (Nat.not_lt.mpr hlen)] at h
  cases hfind : t.find? (here ++ [name]) with
  | some node => exact ⟨node, rfl⟩
  | none =>
    rw [hfind] at h
    cases rest with
    | nil => cases h
    | cons next rest => simp at h

section

variable {purpose : Purpose} {links : Nat} {here : Location} {rest : List String}

theorem walk_link {target : Path} (hslash : name ≠ "/") (hdot : name ≠ ".") (hup : name ≠ "..")
    (hlen : name.utf8ByteSize ≤ maxNameLength) (hrest : isLast rest = false)
    (hfind : t.find? (here ++ [name]) = some (.link target))
    (htarget : (target.isAbsolute || target.text.isEmpty) = false) :
    t.walk purpose (links + 1) here (name :: rest) = t.walk purpose links here (steps target ++ rest) := by
  rw [walk_name hslash hdot hup, if_neg (Nat.not_lt.mpr hlen), hfind]
  simp [hrest, htarget]

theorem walk_below_file {content : Bytes} {mode : Nat} (hslash : name ≠ "/") (hdot : name ≠ ".")
    (hup : name ≠ "..") (hlen : name.utf8ByteSize ≤ maxNameLength) (hrest : isLast rest = false)
    (hfind : t.find? (here ++ [name]) = some (.file content mode)) :
    t.walk purpose links here (name :: rest) = .error .notADirectory := by
  have hne : rest ≠ [] := by
    rintro rfl
    cases hrest
  rw [walk_name hslash hdot hup, if_neg (Nat.not_lt.mpr hlen), hfind]
  simp [hrest, hne]

end

/-- Two ways along the same steps, in trees that agree on the nodes that both have, take just such
nodes. -/
theorem Goes.meet {u a b : Tree} {links k k' : Nat} {here loc loc' : Location} {todo : List String}
    (h : Goes a links here todo k loc) (h' : Goes b links here todo k' loc')
    (hboth : ∀ at_ x y, a.find? at_ = some x → b.find? at_ = some y → y = x ∧ u.find? at_ = some x) :
    Goes u links here todo k loc := by
  -- the second walk is one function's run, so each step of the first way tells what it does
  replace h' := h'.walk_use
  induction h with
  | done => exact .done _ _
  | slash h ih =>
    rw [walk] at h'
    exact .slash (ih h')
  | dot h ih => exact .dot (ih (by simpa [walk] using h'))
  | up hne h ih => exact .up hne (ih (by simpa [walk, hne] using h'))
  | @into links k here loc name rest hslash hdot hup hlen hfind h ih =>
    obtain ⟨node, hother⟩ := exists_of_walk_name hslash hdot hup hlen h'
    obtain ⟨rfl, hnode⟩ := hboth _ _ _ hfind hother
    rw [walk_name hslash hdot hup, if_neg (Nat.not_lt.mpr hlen)] at h'
    exact .into hslash hdot hup hlen hnode (ih (by simpa [hother] using h'))
  | @follow links k here loc name rest target hslash hdot hup hlen hfind htarget h ih =>
    obtain ⟨node, hother⟩ := exists_of_walk_name hslash hdot hup hlen h'
    obtain ⟨rfl, hnode⟩ := hboth _ _ _ hfind hother
    rw [walk_name hslash hdot hup, if_neg (Nat.not_lt.mpr hlen)] at h'
    exact .follow hslash hdot hup hlen hnode htarget (ih (by simpa [hother, htarget] using h'))

/-- A way goes through no file. -/
theorem Goes.remove_file {links k : Nat} {here loc at_ : Location} {todo : List String}
    {content : Bytes} {mode : Nat} (h : Goes t links here todo k loc)
    (hfile : t.find? (at_ ++ [name]) = some (.file content mode)) :
    Goes (t.remove (at_ ++ [name])) links here todo k loc := by
  have hkept : ∀ {other node}, node ≠ .file content mode → t.find? other = some node →
      (t.remove (at_ ++ [name])).find? other = some node := by
    intro other node hnode hfind
    rw [find?_remove, if_neg, hfind]
    rintro rfl
    rw [hfile] at hfind
    exact hnode (Option.some.inj hfind).symm
  exact h.mono (fun _ => hkept nofun) fun _ _ => hkept nofun

/-! ## A directory for private files -/

theorem holderOf_join (hend : dir.ending = []) (hne : dir.parts ≠ []) (hname : Path.IsPart name) :
    holderOf (dir / name) = dir :=
  (Path.holderOf_eq (dir.parts_join hname) hne).trans (Path.parent_join hend hname)

/-- A directory at `loc`, in which files with the given names are accepted. -/
structure Receives (t : Tree) (dir : Path) (loc : Location) (names : List String) : Prop where
  parts_ne : dir.parts ≠ []
  reaches : t.Reaches dir loc
  step : ∀ name ∈ names, Path.IsStep name ∧ name.utf8ByteSize ≤ maxNameLength
  fits : ∀ name ∈ names, (dir / name).text.utf8ByteSize ≤ maxPathLength
  free : ∀ name ∈ names, t.find? (loc ++ [name]) ≠ some .directory

/-- A path at which there is no directory, and none can be made. -/
def Blocked (t : Tree) (dir : Path) : Prop := ∀ t', t.Widens t' → t'.presence dir ≠ .directory

namespace Receives

theorem holderOf_eq (h : t.Receives dir loc names) (hname : name ∈ names) :
    holderOf (dir / name) = dir :=
  holderOf_join h.reaches.ending_eq h.parts_ne (h.step name hname).1.toIsPart

theorem accepts (h : t.Receives dir loc names) (hname : name ∈ names) :
    t.Accepts (dir / name) (loc ++ [name]) :=
  h.reaches.accepts rfl h.parts_ne (h.step name hname).1 (h.step name hname).2 (h.fits name hname)
    (h.free name hname)

theorem namesEntry (h : t.Receives dir loc names) (hname : name ∈ names) :
    t.NamesEntry (dir / name) loc name :=
  h.reaches.namesEntry (h.step name hname).1 (h.step name hname).2 (h.fits name hname)

theorem made (h : t.Receives dir loc names) (hname : name ∈ names) :
    t.makeDirectories dir = (.ok (), t) := by
  have hmade := (h.accepts hname).made
  rwa [h.holderOf_eq hname] at hmade

theorem presence_holder (h : t.Receives dir loc names) (hname : name ∈ names) :
    t.presence (holderOf (dir / name)) = .directory :=
  (replaceFile_eq_ok.mp ((h.accepts hname).put [])).1

/-- A file that is put in a place of its own leaves the way to the directory as it was. -/
theorem put (h : t.Receives dir loc names) (hown : (t.remove (loc ++ [name])).Reaches dir loc)
    (content : Bytes) (mode : Nat) :
    (t.put (loc ++ [name]) (.file content mode)).Receives dir loc names where
  parts_ne := h.parts_ne
  reaches := hown.grows (t.grows_remove_put loc name _)
  step := h.step
  fits := h.fits
  free other hother := by
    rw [find?_put]
    split
    · simp
    · exact h.free other hother

/-- A file that is put in the place of a link on the way to the directory is in the way. -/
theorem blocked_put (h : t.Receives dir loc names)
    (hlink : ¬ (t.remove (loc ++ [name])).Reaches dir loc) (content : Bytes) (mode : Nat) :
    (t.put (loc ++ [name]) (.file content mode)).Blocked dir := by
  intro t' hwidens hthere
  obtain ⟨loc', hlookup⟩ := presence_eq_directory.mp hthere
  obtain ⟨hreaches, -⟩ := reaches_of_lookup h.reaches.ending_eq hlookup
  obtain ⟨k, hgoes⟩ := h.reaches.goes
  obtain ⟨k', hgoes'⟩ := hreaches.goes
  have hput : ∀ at_, at_ ≠ loc ++ [name] →
      (t.put (loc ++ [name]) (.file content mode)).find? at_ = t.find? at_ := fun at_ hat => by
    rw [find?_put, if_neg hat]
  have hfile : t'.find? (loc ++ [name]) = some (.file content mode) :=
    hwidens.grows _ _ (by rw [find?_put, if_pos rfl])
  -- the new way does not go through the file, so the old one did not go through the link
  refine hlink ⟨h.reaches.relative, h.reaches.ending_eq, h.reaches.no_nul, k,
    hgoes.meet (hgoes'.remove_file hfile) fun at_ x y hx hy => ?_⟩
  rw [find?_remove] at hy ⊢
  split at hy
  · cases hy
  · rename_i hat
    have hx' := hwidens.grows at_ x ((hput at_ hat).trans hx)
    rw [hx'] at hy
    rw [if_neg hat]
    exact ⟨(Option.some.inj hy).symm, hx⟩

end Receives

/-- Where no way leads through either of two entries, a file at one of them is not in the way that leaves
out the other. -/
theorem Reaches.remove_put {other : String} {content : Bytes} {mode : Nat}
    (h : (t.remove (loc ++ [name])).Reaches dir loc)
    (h' : (t.remove (loc ++ [other])).Reaches dir loc) :
    ((t.put (loc ++ [name]) (.file content mode)).remove (loc ++ [other])).Reaches dir loc := by
  obtain ⟨k, hgoes⟩ := h.goes
  obtain ⟨k', hgoes'⟩ := h'.goes
  refine ⟨h.relative, h.ending_eq, h.no_nul, k, hgoes.meet hgoes' fun at_ x y hx hy => ?_⟩
  rw [find?_remove] at hx hy ⊢
  rw [find?_put]
  split at hy
  · cases hy
  · rename_i hother
    split at hx
    · cases hx
    · rename_i hname
      rw [if_neg hother, if_neg hname, hx]
      rw [hx] at hy
      exact ⟨(Option.some.inj hy).symm, rfl⟩

/-- Where each of some names can be written below a directory, the directory receives all of them. -/
theorem exists_receives (hne : dir.parts ≠ []) (hend : dir.ending = []) (hnames : names ≠ [])
    (hstep : ∀ name ∈ names, Path.IsStep name ∧ name.utf8ByteSize ≤ maxNameLength)
    (hwritable : ∀ name ∈ names, t.Writable (dir / name)) :
    ∃ t' loc, t.makeDirectories dir = (.ok (), t') ∧ t'.Receives dir loc names := by
  have hholder : ∀ name ∈ names, holderOf (dir / name) = dir := fun name hname =>
    holderOf_join hend hne (hstep name hname).1.toIsPart
  generalize hmake : t.makeDirectories dir = r
  obtain ⟨made, t'⟩ := r
  -- each name can be written just where the directory has been made
  have hput : ∀ name ∈ names, made = .ok () ∧ t'.presence dir = .directory ∧
      ∃ at_ last, t'.NamesEntry (dir / name) at_ last ∧ t'.find? (at_ ++ [last]) ≠ some .directory := by
    intro name hname
    obtain ⟨hmade, content, t'', hreplace⟩ := hwritable name hname
    rw [hholder name hname, hmake] at hmade hreplace
    obtain ⟨hthere, at_, last, hentry, hfree, -⟩ := replaceFile_eq_ok.mp hreplace
    rw [hholder name hname] at hthere
    exact ⟨hmade, hthere, at_, last, hentry, hfree⟩
  obtain ⟨first, rest, rfl⟩ := List.exists_cons_of_ne_nil hnames
  obtain ⟨rfl, hthere, -⟩ := hput first List.mem_cons_self
  obtain ⟨loc, hlookup⟩ := presence_eq_directory.mp hthere
  obtain ⟨hreaches, hlen⟩ := reaches_of_lookup hend hlookup
  have hentry : ∀ name ∈ first :: rest, t'.NamesEntry (dir / name) loc name ∧
      t'.find? (loc ++ [name]) ≠ some .directory := by
    intro name hname
    obtain ⟨-, -, at_, last, hentry, hfree⟩ := hput name hname
    have hsame := hreaches.namesEntry (hstep name hname).1 (hstep name hname).2 hentry.length_le
    obtain ⟨rfl, rfl⟩ := hsame.unique hentry
    exact ⟨hentry, hfree⟩
  exact ⟨t', loc, rfl, hne, hreaches, hstep, fun name hname => (hentry name hname).1.length_le,
    fun name hname => (hentry name hname).2⟩

/-- The way to the directory does not lead through a name's own place, which is one where a file could be
read before directories were made. -/
theorem Receives.reaches_of_own (h : t'.Receives dir loc names) (hname : name ∈ names)
    (hwidens : t.Widens t')
    (hown : t'.OwnPlace (dir / name) ∨ ∃ content, t.contentsAt (dir / name) = .ok content) :
    (t'.remove (loc ++ [name])).Reaches dir loc := by
  have hplace : t'.OwnPlace (dir / name) := by
    rcases hown with hown | ⟨content, hread⟩
    · exact hown
    · exact ownPlace_of_contentsAt (h.presence_holder hname) (hwidens.grows.contentsAt hread)
  have hleft := hplace loc name (h.namesEntry hname)
  rw [h.holderOf_eq hname] at hleft
  obtain ⟨loc', hlookup⟩ := presence_eq_directory.mp hleft
  obtain ⟨hreaches, -⟩ := reaches_of_lookup h.reaches.ending_eq hlookup
  obtain ⟨k, hgoes⟩ := h.reaches.goes
  obtain ⟨k', hgoes'⟩ := hreaches.goes
  have hsame : loc' = loc := hgoes.unique (hgoes'.grows (t'.remove_grows loc name))
  exact hsame ▸ hreaches

/-! ## Key files in one directory -/

/-- The tree after key files were put in a directory one after the other, each under its name. -/
def withKeys (t : Tree) (loc : Location) (kfs : List KeyFile) : Tree :=
  kfs.foldl (fun t kf => t.put (loc ++ [kf.shownName]) (.file kf.encode privateMode)) t

variable {kfs : List KeyFile}

theorem withKeys_append (t : Tree) (loc : Location) (before later : List KeyFile) :
    t.withKeys loc (before ++ later) = (t.withKeys loc before).withKeys loc later :=
  List.foldl_append

theorem withKeys_cons (t : Tree) (loc : Location) (kf : KeyFile) (later : List KeyFile) :
    t.withKeys loc (kf :: later) =
      (t.put (loc ++ [kf.shownName]) (.file kf.encode privateMode)).withKeys loc later := rfl

theorem find?_withKeys_of_ne {at_ : Location} (h : ∀ kf ∈ kfs, at_ ≠ loc ++ [kf.shownName]) :
    (t.withKeys loc kfs).find? at_ = t.find? at_ := by
  induction kfs generalizing t with
  | nil => rfl
  | cons kf later ih =>
    obtain ⟨hkf, hlater⟩ := List.forall_mem_cons.mp h
    rw [withKeys_cons, ih hlater, find?_put, if_neg hkf]

/-- Beside the key files there are at most more directories, made before the first of them or behind the
last. -/
theorem find?_around_withKeys {t'' : Tree} {at_ : Location} (hbefore : t.Widens t')
    (hbehind : (t'.withKeys loc kfs).Widens t'') (h : ∀ kf ∈ kfs, at_ ≠ loc ++ [kf.shownName]) :
    t''.find? at_ = t.find? at_ ∨ t.find? at_ = none ∧ t''.find? at_ = some .directory := by
  have hsame : (t'.withKeys loc kfs).find? at_ = t'.find? at_ := find?_withKeys_of_ne h
  rcases hbehind at_ with hkept | ⟨hnone, hdir⟩
  · rw [hkept, hsame]
    exact hbefore at_
  · rw [hsame] at hnone
    rcases hbefore at_ with hold | ⟨-, hnew⟩
    · exact .inr ⟨hold ▸ hnone, hdir⟩
    · rw [hnone] at hnew
      cases hnew

/-- Of the key files with one name the last is found under it. -/
theorem find?_withKeys {before later : List KeyFile} {kf : KeyFile}
    (h : ∀ other ∈ later, other.name ≠ kf.name) :
    (t.withKeys loc (before ++ kf :: later)).find? (loc ++ [kf.shownName]) =
      some (.file kf.encode privateMode) := by
  rw [withKeys_append, withKeys_cons, find?_withKeys_of_ne, find?_put, if_pos rfl]
  intro other hother hsame
  exact h other hother
    (Store.shownKeyName_injective (List.singleton_inj.mp (List.append_cancel_left hsame))).symm

theorem Receives.withKeys (h : t.Receives dir loc names)
    (hown : ∀ kf ∈ kfs, (t.remove (loc ++ [kf.shownName])).Reaches dir loc) :
    (t.withKeys loc kfs).Receives dir loc names := by
  induction kfs generalizing t with
  | nil => exact h
  | cons kf later ih =>
    obtain ⟨hkf, hlater⟩ := List.forall_mem_cons.mp hown
    exact ih (h.put hkf kf.encode privateMode) fun other hother => hkf.remove_put (hlater other hother)

end Tree

end RepoSeal
