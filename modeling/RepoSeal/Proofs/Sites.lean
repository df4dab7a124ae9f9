import RepoSeal.Proofs.Trees

/-!
# RepoSeal — paths below a directory

A path that goes on from a directory by ordinary names (`Below`) stands for one location, the one that
these names lead to (`lookup_of_some`). In a part of the tree without links nothing else can come of
it. So making directories and putting a file there adds nodes on the way to that location and nowhere
else (`makeDirectories_below`, `replaceFile_of_fits`), and both succeed if the path fits.
-/

namespace RepoSeal

/-! ## Paths that end in ordinary names -/

/-- A path whose parts are those of `front` and then `names`, all of them ordinary. -/
structure Path.Below (p : Path) (front names : List String) : Prop where
  relative : p.isAbsolute = false
  parts_eq : p.parts = front ++ names
  ending_eq : p.ending = []
  not_up : ∀ name ∈ names, name ≠ ".."

namespace Path.Below

variable {p : Path} {front names : List String} {name : String}

theorem isPart (h : p.Below front names) {x : String} (hx : x ∈ front ++ names) : IsPart x :=
  isPart_of_mem_parts (p := p) (h.parts_eq ▸ hx)

theorem steps_eq (h : p.Below front names) : Tree.steps p = front ++ names := by
  rw [Tree.steps, h.parts_eq, h.ending_eq, List.append_nil]

theorem text_ne_empty (h : p.Below front names) (hne : names ≠ []) : p.text ≠ "" := by
  intro hempty
  have hparts := h.parts_eq
  rw [show p = Path.mk "" from congrArg Path.mk hempty, parts_empty] at hparts
  exact hne (List.append_eq_nil_iff.mp hparts.symm).2

theorem join (h : p.Below front names) (hname : IsPart name) (hup : name ≠ "..") :
    (p / name).Below front (names ++ [name]) where
  relative := (p.isAbsolute_join hname).trans h.relative
  parts_eq := by rw [p.parts_join hname, h.parts_eq, List.append_assoc]
  ending_eq := p.ending_join hname
  not_up := List.forall_mem_append.mpr ⟨h.not_up, List.forall_mem_singleton.mpr hup⟩

theorem parts_concat (h : p.Below front (names ++ [name])) :
    p.parts = (front ++ names) ++ [name] := by
  rw [h.parts_eq, List.append_assoc]

theorem parent (h : p.Below front (names ++ [name])) (hne : names ≠ []) :
    p.parent.Below front names where
  relative := isAbsolute_parent h.relative
  parts_eq := parts_parent h.parts_concat
  ending_eq := ending_parent h.parts_concat (List.append_ne_nil_of_right_ne_nil _ hne)
  not_up := fun x hx => h.not_up x (List.mem_append_left _ hx)

theorem holderOf (h : p.Below front (names ++ [name])) (hne : names ≠ []) :
    Tree.holderOf p = p.parent :=
  holderOf_eq h.parts_concat (List.append_ne_nil_of_right_ne_nil _ hne)

theorem fits_parent (h : p.Below front (names ++ [name])) (hfits : p.Fits) : p.parent.Fits :=
  hfits.parent h.parts_concat

end Path.Below

namespace Tree

variable {t t' : Tree} {dir loc : Location} {front names : List String} {name : String} {node : Node}
  {purpose : Purpose} {links k : Nat} {rest : List String} {p : Path}

/-! ## Walks by ordinary names -/

/-- A walk by names finds what lies where they lead, unless that is a link. -/
theorem walk_of_some (hsound : t.Sound) (hne : names ≠ [])
    (hnames : ∀ x ∈ names, Path.IsPart x ∧ x ≠ ".." ∧ x.utf8ByteSize ≤ maxNameLength)
    (hnode : t.find? (dir ++ names) = some node) (hlink : ∀ target, node ≠ .link target) :
    t.walk .use k dir names = .ok (.found (dir ++ names) node) := by
  induction names generalizing dir with
  | nil => exact absurd rfl hne
  | cons x names ih =>
    obtain ⟨⟨hpart, hup, hlen⟩, hnames⟩ := List.forall_mem_cons.mp hnames
    rw [walk_name (ne_slash_of_isPart hpart) hpart.ne_dot hup, if_neg (Nat.not_lt.mpr hlen),
      if_neg (by simp)]
    rw [List.append_cons dir x names] at hnode ⊢
    by_cases hnil : names = []
    · -- the last name: here lies the node itself
      rw [hnil, List.append_nil] at hnode ⊢
      rw [hnode]
      cases node with
      | directory => rw [walk]
      | file content mode => rfl
      | link target => exact absurd rfl (hlink target)
    · -- on the way there are directories, since something lies below
      rw [hsound.directory_of_below hnil hnode]
      exact ih hnil hnames hnode

/-- A walk by names finds nothing but what lies where they lead, if no link is on the way. -/
theorem found_of_walk (hnames : ∀ x ∈ names, Path.IsPart x ∧ x ≠ "..")
    (hdir : t.find? dir = some .directory)
    (hlinks : ∀ a b, names = a ++ b → ∀ target, t.find? (dir ++ a) ≠ some (.link target))
    (h : t.walk .use k dir names = .ok (.found loc node)) :
    t.find? (dir ++ names) = some node := by
  induction names generalizing dir with
  | nil =>
    rw [walk] at h
    cases h
    rwa [List.append_nil]
  | cons x names ih =>
    obtain ⟨⟨hpart, hup⟩, hnames⟩ := List.forall_mem_cons.mp hnames
    rw [walk_name (ne_slash_of_isPart hpart) hpart.ne_dot hup] at h
    split at h
    · -- a name that is too long finds nothing
      cases h
    rw [if_neg (by simp)] at h
    rw [List.append_cons dir x names]
    cases hx : t.find? (dir ++ [x]) with
    | none =>
      rw [hx] at h
      dsimp only at h
      split at h <;> cases h
    | some found =>
      rw [hx] at h
      cases found with
      | directory =>
        refine ih hnames hx (fun a b hab target => ?_) h
        rw [← List.append_cons]
        exact hlinks (x :: a) b (by rw [hab]; rfl) target
      | file content mode =>
        dsimp only at h
        split at h
        · rename_i hnil
          cases h
          rw [List.isEmpty_iff.mp hnil, List.append_nil]
          exact hx
        · cases h
      | link target => exact absurd hx (hlinks [x] names rfl target)

/-- Along the names there are directories, and nothing behind them. -/
def Chain (t : Tree) (dir : Location) (names : List String) : Prop :=
  ∀ a b, names = a ++ b → t.find? (dir ++ a) = none ∨ t.find? (dir ++ a) = some .directory

theorem Chain.tail {x : String} (h : t.Chain dir (x :: names)) : t.Chain (dir ++ [x]) names := by
  intro a b hab
  rw [← List.append_cons]
  exact h (x :: a) b (by rw [hab]; rfl)

theorem Chain.init (h : t.Chain dir (names ++ [name])) : t.Chain dir names := by
  intro a b hab
  exact h a (b ++ [name]) (by rw [hab, List.append_assoc])

theorem Chain.at_end (h : t.Chain dir names) :
    t.find? (dir ++ names) = none ∨ t.find? (dir ++ names) = some .directory :=
  h names [] (List.append_nil names).symm

/-- A walk that is to change an entry finds one only in a directory. -/
theorem entry_of_walk (hsound : t.Sound) (hname : Path.IsPart name ∧ name ≠ "..")
    (hnames : ∀ x ∈ names, Path.IsPart x ∧ x ≠ "..") (hdir : t.find? dir = some .directory)
    (hchain : t.Chain dir names) :
    (t.walk .change k dir (names ++ [name]) = .error .notFound ∧ t.find? (dir ++ names) = none) ∨
      (t.walk .change k dir (names ++ [name]) = .error .nameTooLong ∧
        ¬ ∀ x ∈ names ++ [name], x.utf8ByteSize ≤ maxNameLength) ∨
      t.walk .change k dir (names ++ [name]) = .ok (.entry (dir ++ names) name false) ∧
        t.find? (dir ++ names) = some .directory ∧
        ∀ x ∈ names ++ [name], x.utf8ByteSize ≤ maxNameLength := by
  induction names generalizing dir with
  | nil =>
    -- the entry to be changed lies in `dir` itself
    rw [List.nil_append, walk_name (ne_slash_of_isPart hname.1) hname.1.ne_dot hname.2,
      List.append_nil, List.forall_mem_singleton]
    by_cases hlen : maxNameLength < name.utf8ByteSize
    · rw [if_pos hlen]
      exact .inr (.inl ⟨rfl, Nat.not_le.mpr hlen⟩)
    · rw [if_neg hlen]
      exact .inr (.inr ⟨rfl, hdir, Nat.le_of_not_lt hlen⟩)
  | cons x names ih =>
    obtain ⟨⟨hpart, hup⟩, hnames⟩ := List.forall_mem_cons.mp hnames
    have hlast : isLast (names ++ [name]) = false := by
      rw [isLast_append]
      simp [isLast, ne_slash_of_isPart hname.1]
    rw [List.cons_append, List.forall_mem_cons,
      walk_name (ne_slash_of_isPart hpart) hpart.ne_dot hup, hlast, Bool.and_false,
      if_neg Bool.false_ne_true, List.append_cons dir x names]
    by_cases hlen : maxNameLength < x.utf8ByteSize
    · rw [if_pos hlen]
      exact .inr (.inl ⟨rfl, fun h => absurd h.1 (Nat.not_le.mpr hlen)⟩)
    rw [if_neg hlen]
    rcases hchain [x] names rfl with hx | hx
    · -- the first name is missing, and then so is all that would be below
      rw [hx]
      refine .inl ⟨?_, hsound.absent_below hx names⟩
      cases names <;> rfl
    · rw [hx]
      rcases ih hnames hx hchain.tail with h | ⟨hwalk, hlong⟩ | ⟨hwalk, hdir, hlens⟩
      · exact .inl h
      · exact .inr (.inl ⟨hwalk, fun h => hlong h.2⟩)
      · exact .inr (.inr ⟨hwalk, hdir, Nat.le_of_not_lt hlen, hlens⟩)

theorem isPart_below (hp : p.Below front names) : ∀ x ∈ names, Path.IsPart x ∧ x ≠ ".." :=
  fun x hx => ⟨hp.isPart (List.mem_append_right front hx), hp.not_up x hx⟩

theorem lookup_of_not_textFits (hrel : p.isAbsolute = false) (htext : p.text ≠ "")
    (h : ¬ p.TextFits) :
    ∃ fault : Fault, fault.kind ≠ .notFound ∧ ∀ purpose, t.lookup purpose p = .error fault := by
  have hempty : p.text.isEmpty = false := by simpa using htext
  -- a NUL is looked for first, then the length
  by_cases hnul : '\x00' ∈ p.text.toList
  · refine ⟨⟨.invalidInput, "file name contained an unexpected NUL byte"⟩, by decide, fun purpose => ?_⟩
    rw [lookup, if_pos (by simpa using hnul)]
  · have hlong : maxPathLength < p.text.utf8ByteSize := by
      by_contra hshort
      exact h ⟨hnul, Nat.le_of_not_lt hshort⟩
    refine ⟨.nameTooLong, by decide, fun purpose => ?_⟩
    rw [lookup, if_neg (by simpa using hnul), if_neg (by simp [hrel, hempty]), if_pos hlong]

/-! ## Looking up below a directory -/

/-- A directory that a walk leads to, below which no links lie at `first` or deeper. -/
structure Site (t : Tree) (front : List String) (dir : Location) (first : String) : Prop where
  sound : t.Sound
  leads : ∃ k, Goes t maxLinks [] front k dir
  link_free : ∀ names, names.head? = some first → ∀ target,
    t.find? (dir ++ names) ≠ some (.link target)

namespace Site

variable {first : String}

theorem directory (h : t.Site front dir first) : t.find? dir = some .directory := by
  obtain ⟨k, hgoes⟩ := h.leads
  exact hgoes.directory h.sound rfl

theorem grows (h : t.Site front dir first) (hsound : t'.Sound) (hgrows : t.Grows t')
    (hlinks : ∀ names, names.head? = some first → ∀ target,
      t'.find? (dir ++ names) ≠ some (.link target)) : t'.Site front dir first := by
  obtain ⟨k, hgoes⟩ := h.leads
  exact ⟨hsound, ⟨k, hgoes.grows hgrows⟩, hlinks⟩

/-- The lookup of a path below the directory is a walk from there. -/
theorem lookup_below (h : t.Site front dir first) (hp : p.Below front names)
    (hfirst : names.head? = some first) (htext : p.TextFits) :
    ∃ k, ∀ purpose, t.lookup purpose p = t.walk purpose k dir names := by
  obtain ⟨k, hgoes⟩ := h.leads
  obtain ⟨rest, rfl⟩ := List.head?_eq_some_iff.mp hfirst
  have hempty : p.text.isEmpty = false := by
    simpa using hp.text_ne_empty (List.cons_ne_nil _ _)
  have hslash := ne_slash_of_isPart (hp.isPart (List.mem_append_right front List.mem_cons_self))
  have hlast : isLast (first :: rest) = false := by simp [isLast, hslash]
  refine ⟨k, fun purpose => ?_⟩
  rw [lookup, if_neg (by simpa using htext.no_nul), if_neg (by simp [hp.relative, hempty]),
    if_neg (Nat.not_lt.mpr htext.length_le), hp.steps_eq]
  exact hgoes.walk_append hlast

/-- What lies at the location of a path is what a lookup finds. -/
theorem lookup_of_some (h : t.Site front dir first) (hp : p.Below front names)
    (hfirst : names.head? = some first) (hfits : p.Fits)
    (hnode : t.find? (dir ++ names) = some node) :
    t.lookup .use p = .ok (.found (dir ++ names) node) := by
  obtain ⟨k, hlookup⟩ := h.lookup_below hp hfirst hfits.toTextFits
  have hnames : ∀ x ∈ names, Path.IsPart x ∧ x ≠ ".." ∧ x.utf8ByteSize ≤ maxNameLength := by
    intro x hx
    have hmem : x ∈ p.parts := by
      rw [hp.parts_eq]
      exact List.mem_append_right _ hx
    exact ⟨Path.isPart_of_mem_parts hmem, hp.not_up x hx, hfits.part_le x hmem⟩
  rw [hlookup]
  refine walk_of_some h.sound (fun hnil => ?_) hnames hnode fun target hlink => ?_
  · rw [hnil] at hfirst
    cases hfirst
  · rw [hlink] at hnode
    exact h.link_free names hfirst target hnode

/-- Nothing else is found. -/
theorem find?_of_lookup (h : t.Site front dir first) (hp : p.Below front names)
    (hfirst : names.head? = some first) (hfound : t.lookup .use p = .ok (.found loc node)) :
    t.find? (dir ++ names) = some node := by
  have hne : names ≠ [] := fun hnil => by
    rw [hnil] at hfirst
    cases hfirst
  by_cases htext : p.TextFits
  · obtain ⟨k, hlookup⟩ := h.lookup_below hp hfirst htext
    rw [hlookup] at hfound
    refine found_of_walk (isPart_below hp) h.directory (fun a b hab target => ?_) hfound
    cases a with
    | nil =>
      rw [List.append_nil, h.directory]
      intro heq
      cases heq
    | cons x a =>
      refine h.link_free (x :: a) ?_ target
      rw [hab] at hfirst
      exact hfirst
  · obtain ⟨fault, -, hlookup⟩ :=
      lookup_of_not_textFits (t := t) hp.relative (hp.text_ne_empty hne) htext
    rw [hlookup] at hfound
    cases hfound

theorem presence_of_none (h : t.Site front dir first) (hp : p.Below front names)
    (hfirst : names.head? = some first) (hnone : t.find? (dir ++ names) = none) :
    t.presence p = .absent := by
  have hnot : ∀ loc node, t.lookup .use p ≠ .ok (.found loc node) := by
    intro loc node hfound
    rw [h.find?_of_lookup hp hfirst hfound] at hnone
    cases hnone
  unfold presence
  split
  · rename_i hfound
    exact absurd hfound (hnot _ _)
  · rename_i hfound
    exact absurd hfound (hnot _ _)
  · rfl

theorem presence_of_directory (h : t.Site front dir first) (hp : p.Below front names)
    (hfirst : names.head? = some first) (hfits : p.Fits)
    (hdir : t.find? (dir ++ names) = some .directory) : t.presence p = .directory := by
  rw [presence, h.lookup_of_some hp hfirst hfits hdir]

theorem find?_of_presence (h : t.Site front dir first) (hp : p.Below front names)
    (hfirst : names.head? = some first) (hpresence : t.presence p = .directory) :
    t.find? (dir ++ names) = some .directory := by
  unfold presence at hpresence
  split at hpresence
  · rename_i hfound
    exact h.find?_of_lookup hp hfirst hfound
  · cases hpresence
  · cases hpresence

theorem contentsAt_of_file (h : t.Site front dir first) (hp : p.Below front names)
    (hfirst : names.head? = some first) (hfits : p.Fits) {content : Bytes} {mode : Nat}
    (hfile : t.find? (dir ++ names) = some (.file content mode)) : t.contentsAt p = .ok content := by
  rw [contentsAt, h.lookup_of_some hp hfirst hfits hfile]

/-- The lookup of a path whose entry is to be changed: nothing is there to hold the entry, or the path
does not fit, or the directory is there that holds it. -/
theorem lookup_change (h : t.Site front dir first) (hp : p.Below front (names ++ [name]))
    (hfirst : (names ++ [name]).head? = some first) (hchain : t.Chain dir names) :
    (t.lookup .change p = .error .notFound ∧ t.find? (dir ++ names) = none) ∨
      (∃ fault : Fault, t.lookup .change p = .error fault ∧ fault.kind ≠ .notFound ∧ ¬ p.Fits) ∨
      t.lookup .change p = .ok (.entry (dir ++ names) name false) ∧
        t.find? (dir ++ names) = some .directory ∧ p.Fits := by
  have hne : names ++ [name] ≠ [] := List.append_ne_nil_of_right_ne_nil _ (List.cons_ne_nil _ _)
  by_cases htext : p.TextFits
  case neg =>
    obtain ⟨fault, hkind, hlookup⟩ :=
      lookup_of_not_textFits (t := t) hp.relative (hp.text_ne_empty hne) htext
    exact .inr (.inl ⟨fault, hlookup .change, hkind, fun hfits => htext hfits.toTextFits⟩)
  have hparts := isPart_below hp
  obtain ⟨hnames, hname⟩ := List.forall_mem_append.mp hparts
  obtain ⟨k, hlookup⟩ := h.lookup_below hp hfirst htext
  rw [hlookup]
  -- what a walk says about names, said about the parts of the path
  rcases entry_of_walk (k := k) h.sound (hname name List.mem_cons_self) hnames h.directory hchain with
    hwalk | ⟨hwalk, hlong⟩ | ⟨hwalk, hdir, hlens⟩
  · exact .inl hwalk
  · refine .inr (.inl ⟨_, hwalk, by decide, fun hfits => hlong fun x hx => ?_⟩)
    exact hfits.part_le x (hp.parts_eq ▸ List.mem_append_right _ hx)
  · refine .inr (.inr ⟨hwalk, hdir, ⟨htext, fun part hpart => ?_⟩⟩)
    obtain ⟨links, hgoes⟩ := h.leads
    rw [hp.parts_eq] at hpart
    rcases List.mem_append.mp hpart with hpart | hpart
    · exact hgoes.name_le part hpart
    · exact hlens part hpart

end Site

/-! ## Making directories -/

/-- A tree in which directories were laid along the names of a path, and nothing else. The path of each
new one fits. -/
structure Laid (t t' : Tree) (dir : Location) (names : List String) (here : Path) : Prop where
  sound : t'.Sound
  grows : t.Grows t'
  new : ∀ loc node, t'.find? loc = some node → t.find? loc = some node ∨
    node = .directory ∧ ∃ a b, names = a ++ b ∧ a ≠ [] ∧ loc = dir ++ a ∧
      (Path.parent^[b.length] here).Fits

/-- A file lies deeper than the directories on the way to it. -/
theorem file_ne_above (dir a b : Location) (file : String) : dir ++ (a ++ b) ++ [file] ≠ dir ++ a := by
  intro h
  have hlen := congrArg List.length h
  simp only [List.length_append, List.length_singleton] at hlen
  omega

namespace Laid

variable {here : Path}

theorem refl (h : t.Sound) (dir : Location) (names : List String) (here : Path) :
    t.Laid t dir names here :=
  ⟨h, fun _ _ hnode => hnode, fun _ _ hnode => .inl hnode⟩

theorem trans {t'' : Tree} (h : t.Laid t' dir names here) (h' : t'.Laid t'' dir names here) :
    t.Laid t'' dir names here := by
  refine ⟨h'.sound, fun loc node hnode => h'.grows _ _ (h.grows _ _ hnode), fun loc node hnode => ?_⟩
  rcases h'.new loc node hnode with hold | hnew
  · exact h.new loc node hold
  · exact .inr hnew

theorem concat (h : t.Laid t' dir names here.parent) (name : String) :
    t.Laid t' dir (names ++ [name]) here := by
  refine ⟨h.sound, h.grows, fun loc node hnode => ?_⟩
  rcases h.new loc node hnode with hold | ⟨hdirectory, a, b, hab, hne, hloc, hfits⟩
  · exact .inl hold
  · refine .inr ⟨hdirectory, a, b ++ [name], by rw [hab, List.append_assoc], hne, hloc, ?_⟩
    rw [List.length_append]
    exact hfits

theorem put (hsound : t.Sound) (hdir : t.find? (dir ++ names) = some .directory)
    (habsent : t.find? (dir ++ names ++ [name]) = none) (hfits : here.Fits) :
    t.Laid (t.put (dir ++ names ++ [name]) .directory) dir (names ++ [name]) here := by
  refine ⟨hsound.put hdir habsent _, grows_put habsent _, fun loc node hnode => ?_⟩
  rw [find?_put] at hnode
  split at hnode
  · rename_i hloc
    cases hnode
    refine .inr ⟨rfl, names ++ [name], [], (List.append_nil _).symm, ?_, ?_, hfits⟩
    · exact List.append_ne_nil_of_right_ne_nil _ (List.cons_ne_nil _ _)
    · rw [hloc, List.append_assoc]
  · exact .inl hnode

/-- A place for a file is still free. -/
theorem find?_file (h : t.Laid t' dir names here) {file : String}
    (hnone : t.find? (dir ++ names ++ [file]) = none) : t'.find? (dir ++ names ++ [file]) = none := by
  cases hnode : t'.find? (dir ++ names ++ [file]) with
  | none => rfl
  | some node =>
    rcases h.new _ _ hnode with hold | ⟨-, a, b, hab, -, hloc, -⟩
    · rw [hnone] at hold
      cases hold
    · exact absurd hloc (hab ▸ file_ne_above dir a b file)

theorem site {first : String} (h : t.Laid t' dir names here) (hsite : t.Site front dir first) :
    t'.Site front dir first := by
  refine hsite.grows h.sound h.grows fun below hfirst target hnode => ?_
  rcases h.new _ _ hnode with hold | ⟨hdirectory, -⟩
  · exact hsite.link_free below hfirst target hold
  · cases hdirectory

theorem chain {names' : List String} (h : t.Laid t' dir names here) (hchain : t.Chain dir names') :
    t'.Chain dir names' := by
  intro a b hab
  cases hnode : t'.find? (dir ++ a) with
  | none => exact .inl rfl
  | some node =>
    rcases h.new _ _ hnode with hold | ⟨rfl, -⟩
    · rcases hchain a b hab with hnone | hdir
      · rw [hold] at hnone
        cases hnone
      · exact .inr (hold ▸ hdir)
    · exact .inr rfl

end Laid

/-- One attempt to make a directory, which may be there already. -/
def ensureDirectory (t : Tree) (here : Path) : Except Fault Unit × Tree :=
  match t.makeDirectory here with
  | .ok t' => (.ok (), t')
  | .error fault => if t.presence here = .directory then (.ok (), t) else (.error fault, t)

theorem makeDirectoriesOn_of_missing {here : Path} {parts : List String} (hne : parts ≠ [])
    (h : t.lookup .change here = .error .notFound) :
    t.makeDirectoriesOn here parts =
      match t.makeDirectoriesOn here.parent parts.dropLast with
      | (.error fault, t') => (.error fault, t')
      | (.ok _, t') => t'.ensureDirectory here := by
  have hmake : t.makeDirectory here = .error .notFound := by rw [makeDirectory, h]
  rw [makeDirectoriesOn, dif_neg hne, hmake]
  dsimp only
  rw [if_pos (show Fault.notFound.kind = .notFound from rfl)]
  rcases t.makeDirectoriesOn here.parent parts.dropLast with ⟨_ | _, t'⟩ <;> rfl

theorem makeDirectoriesOn_of_held {here : Path} {parts : List String} (hne : parts ≠ [])
    (h : ∀ fault : Fault, t.lookup .change here = .error fault → fault.kind ≠ .notFound) :
    t.makeDirectoriesOn here parts = t.ensureDirectory here := by
  rw [makeDirectoriesOn, dif_neg hne, ensureDirectory]
  cases hmake : t.makeDirectory here with
  | ok t' => rfl
  | error fault =>
    have hkind : fault.kind ≠ .notFound := by
      unfold makeDirectory at hmake
      split at hmake
      · rename_i hlookup
        cases hmake
        exact h _ hlookup
      · split at hmake <;> cases hmake
        decide
      · cases hmake
        decide
    dsimp only
    rw [if_neg hkind]

section

variable {first : String} {here : Path}

/-- One attempt makes the directory if another one holds it. -/
theorem Site.ensureDirectory_below (h : t.Site front dir first)
    (hp : here.Below front (names ++ [name])) (hfirst : (names ++ [name]).head? = some first)
    (hchain : t.Chain dir (names ++ [name])) :
    t.Laid (t.ensureDirectory here).2 dir (names ++ [name]) here ∧
      (here.Fits → t.find? (dir ++ names) = some .directory →
        (t.ensureDirectory here).1 = .ok () ∧
          (t.ensureDirectory here).2.find? (dir ++ (names ++ [name])) = some .directory) := by
  have hrefl := Laid.refl h.sound dir (names ++ [name]) here
  -- an attempt that fails leaves the tree, and counts if a directory is there
  have hfailed : ∀ fault, t.makeDirectory here = .error fault →
      (t.ensureDirectory here).2 = t ∧ (t.presence here = .directory →
        (t.ensureDirectory here).1 = .ok ()) := by
    intro fault hmake
    rw [ensureDirectory, hmake]
    dsimp only
    split
    · exact ⟨rfl, fun _ => rfl⟩
    · rename_i hnot
      exact ⟨rfl, fun hdir => absurd hdir hnot⟩
  rcases h.lookup_change hp hfirst hchain.init with
    ⟨hlookup, hnone⟩ | ⟨fault, hlookup, -, hnot⟩ | ⟨hlookup, hdir, hfits⟩
  · -- nothing holds it
    have hmake : t.makeDirectory here = .error .notFound := by rw [makeDirectory, hlookup]
    rw [(hfailed _ hmake).1]
    refine ⟨hrefl, fun _ hdir => ?_⟩
    rw [hnone] at hdir
    cases hdir
  · -- the path does not fit
    have hmake : t.makeDirectory here = .error fault := by rw [makeDirectory, hlookup]
    rw [(hfailed _ hmake).1]
    exact ⟨hrefl, fun hfits => absurd hfits hnot⟩
  · -- it is made, or it is there already
    rcases hchain.at_end with hnone | hthere
    · rw [← List.append_assoc] at hnone
      have hmake : t.makeDirectory here = .ok (t.put (dir ++ names ++ [name]) .directory) := by
        rw [makeDirectory, hlookup]
        dsimp only
        rw [hnone]
        rfl
      rw [ensureDirectory, hmake]
      refine ⟨Laid.put h.sound hdir hnone hfits, fun _ _ => ⟨rfl, ?_⟩⟩
      rw [← List.append_assoc, find?_put, if_pos rfl]
    · have hmake : t.makeDirectory here = .error .alreadyExists := by
        rw [makeDirectory, hlookup]
        dsimp only
        rw [List.append_assoc, hthere]
        rfl
      rw [(hfailed _ hmake).1]
      exact ⟨hrefl, fun hfits _ =>
        ⟨(hfailed _ hmake).2 (h.presence_of_directory hp hfirst hfits hthere), hthere⟩⟩

/-- Making directories lays them along the names of the path, and succeeds if the path fits. -/
theorem Site.makeDirectoriesOn_below (h : t.Site front dir first) (hp : here.Below front names)
    (hfirst : names.head? = some first) (hchain : t.Chain dir names) :
    t.Laid (t.makeDirectoriesOn here (front ++ names)).2 dir names here ∧
      (here.Fits → (t.makeDirectoriesOn here (front ++ names)).1 = .ok () ∧
        (t.makeDirectoriesOn here (front ++ names)).2.find? (dir ++ names) = some .directory) := by
  induction names using List.reverseRecOn generalizing here with
  | nil => cases hfirst
  | append_singleton names name ih =>
    have hne : front ++ (names ++ [name]) ≠ [] :=
      List.append_ne_nil_of_right_ne_nil _
        (List.append_ne_nil_of_right_ne_nil _ (List.cons_ne_nil _ _))
    rcases h.lookup_change hp hfirst hchain.init with
      ⟨hlookup, hnone⟩ | ⟨fault, hlookup, hkind, hnot⟩ | ⟨hlookup, hdir, hfits⟩
    · -- the directories on the way come first
      have hnames : names ≠ [] := by
        rintro rfl
        rw [List.append_nil, h.directory] at hnone
        cases hnone
      have hfirst' : names.head? = some first := by
        rwa [List.head?_append_of_ne_nil _ hnames] at hfirst
      obtain ⟨hlaid, hmade⟩ := ih (hp.parent hnames) hfirst' hchain.init
      rw [makeDirectoriesOn_of_missing hne hlookup, ← List.append_assoc, List.dropLast_concat]
      generalize t.makeDirectoriesOn here.parent (front ++ names) = r at hlaid hmade
      obtain ⟨o, t'⟩ := r
      cases o with
      | error fault =>
        refine ⟨hlaid.concat name, fun hfits => ?_⟩
        cases (hmade (hp.fits_parent hfits)).1
      | ok _ =>
        obtain ⟨hlaid', hmade'⟩ := (hlaid.site h).ensureDirectory_below hp hfirst
          (hlaid.chain hchain)
        refine ⟨(hlaid.concat name).trans hlaid', fun hfits => ?_⟩
        exact hmade' hfits (hmade (hp.fits_parent hfits)).2
    · -- the path does not fit, so it is not tried any further
      rw [makeDirectoriesOn_of_held hne fun fault' h' => by
        rw [hlookup] at h'
        cases h'
        exact hkind]
      obtain ⟨hlaid, -⟩ := h.ensureDirectory_below hp hfirst hchain
      exact ⟨hlaid, fun hfits => absurd hfits hnot⟩
    · -- the directory that holds it is there
      rw [makeDirectoriesOn_of_held hne fun fault' h' => by
        rw [hlookup] at h'
        cases h']
      obtain ⟨hlaid, hmade⟩ := h.ensureDirectory_below hp hfirst hchain
      exact ⟨hlaid, fun hfits => hmade hfits hdir⟩

theorem Site.makeDirectories_below (h : t.Site front dir first) (hp : here.Below front names)
    (hfirst : names.head? = some first) (hchain : t.Chain dir names) :
    t.Laid (t.makeDirectories here).2 dir names here ∧
      (here.Fits → (t.makeDirectories here).1 = .ok () ∧
        (t.makeDirectories here).2.find? (dir ++ names) = some .directory) := by
  rw [makeDirectories, hp.relative, Bool.false_and, if_neg Bool.false_ne_true, hp.parts_eq]
  exact h.makeDirectoriesOn_below hp hfirst hchain

/-! ## Putting files -/

theorem Sound.chain (h : t.Sound) (hdir : t.find? (dir ++ names) = some .directory) :
    t.Chain dir names := by
  rintro a b rfl
  by_cases hb : b = []
  · rw [hb, List.append_nil] at hdir
    exact .inr hdir
  · rw [← List.append_assoc] at hdir
    exact .inr (h.directory_of_below hb hdir)

/-- A file is put into a directory that is there, if its path fits and no directory is in its place. -/
theorem Site.replaceFile_of_fits (h : t.Site front dir first)
    (hp : p.Below front (names ++ [name])) (hfirst : names.head? = some first)
    (hdir : t.find? (dir ++ names) = some .directory)
    (hplace : t.find? (dir ++ names ++ [name]) ≠ some .directory) (hfits : p.Fits)
    (content : Bytes) :
    t.replaceFile p content = .ok (t.put (dir ++ names ++ [name]) (.file content privateMode)) := by
  have hne : names ≠ [] := by
    rintro rfl
    cases hfirst
  have hholder : t.presence (holderOf p) = .directory := by
    rw [hp.holderOf hne]
    exact h.presence_of_directory (hp.parent hne) hfirst (hp.fits_parent hfits) hdir
  have hfirst' : (names ++ [name]).head? = some first := by
    rw [List.head?_append_of_ne_nil _ hne]
    exact hfirst
  rw [replaceFile, hholder]
  dsimp only
  -- the directory is there and the path fits, so the entry is found
  rcases h.lookup_change hp hfirst' (h.sound.chain hdir) with
    ⟨-, hnone⟩ | ⟨-, -, -, hnot⟩ | ⟨hlookup, -, -⟩
  · rw [hdir] at hnone
    cases hnone
  · exact absurd hfits hnot
  · rw [hlookup]
    dsimp only
    rw [if_neg Bool.false_ne_true, if_neg hplace]

/-- No file is put at a path that does not fit. -/
theorem Site.replaceFile_of_not_fits (h : t.Site front dir first)
    (hp : p.Below front (names ++ [name])) (hfirst : (names ++ [name]).head? = some first)
    (hchain : t.Chain dir names) (hnot : ¬ p.Fits) (content : Bytes) :
    ∃ fault, t.replaceFile p content = .error fault := by
  unfold replaceFile
  split
  · exact ⟨_, rfl⟩
  · exact ⟨_, rfl⟩
  · rcases h.lookup_change hp hfirst hchain with
      ⟨hlookup, -⟩ | ⟨fault, hlookup, -⟩ | ⟨-, -, hfits⟩
    · rw [hlookup]
      exact ⟨_, rfl⟩
    · rw [hlookup]
      exact ⟨_, rfl⟩
    · exact absurd hfits hnot

end

end Tree

end RepoSeal
