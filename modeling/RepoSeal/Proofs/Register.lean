import RepoSeal.Proofs.Copies
import RepoSeal.Proofs.Plans

/-!
# RepoSeal — the register that a store stands for

A store is a directory tree, but what it says is a register: which recipient has which version of which
key. Handing a version out writes it into the register for each recipient who is not there yet, up to
the first who cannot get a copy (`Register.handOut`). A tree mirrors a register (`Store.Mirrors`) if the
files below the store's directory are its copies, each at its place, and apart from these there are
only the directories on the way to places.
-/

namespace RepoSeal

/-! ## The register -/

/-- The key file that has one version of a key and no other. -/
def KeyFile.single (name : Option KeyName) (entry : KeyEntry) : KeyFile :=
  ⟨name, [entry], List.pairwise_singleton _ _⟩

@[simp] theorem KeyFile.name_single (name : Option KeyName) (entry : KeyEntry) :
    (single name entry).name = name := rfl

theorem KeyFile.add_empty (name : Option KeyName) (entry : KeyEntry) :
    (KeyFile.empty name).add entry = .ok (.single name entry) := by
  rw [add_eq_ok_iff]
  refine ⟨fun x hx => absurd hx List.not_mem_nil, rfl, fun x => ?_⟩
  simp [single, empty]

structure Register where
  /-- The version of a key that a recipient has a copy of. -/
  copies : Option KeyName → UInt32 → String → Option KeyEntry := fun _ _ _ => none
  /-- How many random bytes have been drawn. -/
  drawn : Nat := 0

/-- The newest version of a key, given to recipients. -/
structure Grant where
  keyFile : KeyFile
  recipients : List String
  trusted : Bool

namespace Register

def insert (r : Register) (name : Option KeyName) (entry : KeyEntry) (f : String) : Register :=
  { r with copies := fun name' v f' =>
      if name' = name ∧ v = entry.version ∧ f' = f then some entry else r.copies name' v f' }

theorem copies_insert (r : Register) (name : Option KeyName) (entry : KeyEntry) (f : String)
    (name' : Option KeyName) (v : UInt32) (f' : String) :
    (r.insert name entry f).copies name' v f' =
      if name' = name ∧ v = entry.version ∧ f' = f then some entry else r.copies name' v f' := rfl

/-- A copy after one was written in is that one, or it was there before. -/
theorem insert_copies_cases {r : Register} {name name' : Option KeyName} {entry entry' : KeyEntry}
    {v : UInt32} {f f' : String} (h : (r.insert name entry f).copies name' v f' = some entry') :
    (name' = name ∧ v = entry.version ∧ f' = f ∧ entry' = entry) ∨
      r.copies name' v f' = some entry' := by
  rw [copies_insert] at h
  split at h
  · rename_i hsame
    exact .inl ⟨hsame.1, hsame.2.1, hsame.2.2, (Option.some.inj h).symm⟩
  · exact .inr h

/-- The random bytes that the next copy is made with. -/
def seed (r : Register) (supply : Nat → UInt8) (n : Nat) : Octets n :=
  (World.draw { supply, drawn := r.drawn } n).1

/-- Hands a version to recipients one by one, up to the first who cannot get a copy: it cannot be made,
or its file cannot be written. Who has the version already keeps the old copy. -/
def handOut (r : Register) (s : Store) (supply : Nat → UInt8) (name : Option KeyName)
    (entry : KeyEntry) (trusted : Bool) : List String → Register
  | [] => r
  | f :: rest =>
    if (r.copies name entry.version f).isSome then handOut r s supply name entry trusted rest
    else
      let r' := { r with drawn := r.drawn + s.wrapper.seedLength }
      match s.wrapper.wrap (r.seed supply s.wrapper.seedLength)
          (KeyFile.single name entry).encode f trusted with
      | .error _ => r'
      | .ok _ =>
        if (s.blobPath (name.map KeyName.text) entry.version f).Fits then
          handOut (r'.insert name entry f) s supply name entry trusted rest
        else r'

/-- A grant hands out the newest version, if all recipients are valid and there is one. -/
def grant (s : Store) (supply : Nat → UInt8) (r : Register) (g : Grant) : Register :=
  match g.recipients.mapM s.wrapper.fingerprint, g.keyFile.getLatest? with
  | .ok fs, some entry => r.handOut s supply g.keyFile.name entry g.trusted fs
  | _, _ => r

end Register

namespace Store

/-- The surroundings after a grant, whether or not it succeeded. -/
def afterGrant (s : Store) (w : World) (g : Grant) : World :=
  ((s.addCollaborators g.keyFile g.recipients g.trusted).on w).2

def afterGrants (s : Store) (w : World) (gs : List Grant) : World := gs.foldl s.afterGrant w

/-- The register after grants, from an empty one. -/
def registerOf (s : Store) (w : World) (gs : List Grant) : Register :=
  gs.foldl (Register.grant s w.supply) { drawn := w.drawn }

/-! ## The tree of a register -/

/-- The names below `dir` that lead to the directory of a version. -/
def versionNames (names : List String) (name : Option KeyName) (v : UInt32) : List String :=
  names ++ [shownKeyName name, toString v]

/-- The names below `dir` that lead to a copy. -/
def place (s : Store) (names : List String) (name : Option KeyName) (v : UInt32) (f : String) :
    List String :=
  versionNames names name v ++ [s.fileName f]

/-- The directory of a version. -/
def versionDir (s : Store) (name : Option KeyName) (v : UInt32) : Path :=
  s.keyDir (name.map KeyName.text) / toString v

/-- A store whose directory is reached by `front` and from there by the ordinary `names`, and whose files
have ordinary names. -/
structure Placed (s : Store) (front names : List String) (first : String) : Prop where
  root_below : s.root.Below front names
  head_eq : names.head? = some first
  suffix_plain : '/' ∉ s.wrapper.suffix.toList

/-- A tree in which the files below the store's directory are the copies of a register. -/
structure Mirrors (s : Store) (front : List String) (dir : Location) (names : List String)
    (first : String) (t : Tree) (r : Register) : Prop where
  site : t.Site front dir first
  directories : ∀ below, below.head? = some first → t.find? (dir ++ below) = some .directory →
    ∃ name v b, versionNames names name v = below ++ b ∧
      (Path.parent^[b.length] (s.versionDir name v)).Fits
  files : ∀ below content mode, below.head? = some first →
    t.find? (dir ++ below) = some (.file content mode) →
    ∃ name v f, below = s.place names name v f ∧ (r.copies name v f).isSome
  filed : ∀ name v f entry, r.copies name v f = some entry →
    ∃ content mode seed trusted,
      t.find? (dir ++ s.place names name v f) = some (.file content mode) ∧
        s.wrapper.wrap seed (KeyFile.single name entry).encode f trusted = .ok content
  sane : ∀ name v f entry, r.copies name v f = some entry →
    entry.version = v ∧ PlainFingerprint f ∧ (s.blobPath (name.map KeyName.text) v f).Fits

theorem place_injective {s : Store} {names : List String} {name name' : Option KeyName}
    {v v' : UInt32} {f f' : String} (h : s.place names name v f = s.place names name' v' f') :
    name = name' ∧ v = v' ∧ f = f' := by
  unfold place versionNames at h
  rw [List.append_assoc, List.append_assoc] at h
  have hparts := List.append_cancel_left h
  simp only [List.cons_append, List.nil_append, List.cons.injEq, and_true] at hparts
  exact ⟨shownKeyName_injective hparts.1, toString_injective hparts.2.1,
    fileName_injective hparts.2.2⟩

section

variable {s : Store} {front names : List String} {dir : Location} {first : String} {t t' : Tree}
  {r : Register} {name : Option KeyName} {v : UInt32} {f : String} {entry : KeyEntry}

theorem head?_append_of_some {a b : List String} (h : a.head? = some first) :
    (a ++ b).head? = some first := by
  obtain ⟨rest, rfl⟩ := List.head?_eq_some_iff.mp h
  rfl

namespace Placed

theorem head_version (h : s.Placed front names first) (name : Option KeyName) (v : UInt32) :
    (versionNames names name v).head? = some first :=
  head?_append_of_some h.head_eq

theorem head_place (h : s.Placed front names first) (name : Option KeyName) (v : UInt32)
    (f : String) : (s.place names name v f).head? = some first :=
  head?_append_of_some (h.head_version name v)

theorem keyDir_below (h : s.Placed front names first) (name : Option KeyName) :
    (s.keyDir (name.map KeyName.text)).Below front (names ++ [shownKeyName name]) := by
  obtain ⟨hname, hup⟩ := isPart_shownKeyName name
  rw [keyDir, getD_defaultKeyName]
  exact h.root_below.join hname hup

theorem versionDir_below (h : s.Placed front names first) (name : Option KeyName) (v : UInt32) :
    (s.versionDir name v).Below front (versionNames names name v) := by
  obtain ⟨hv, hup⟩ := isPart_toString v
  have hbelow := (h.keyDir_below name).join hv hup
  rw [List.append_assoc] at hbelow
  exact hbelow

theorem namesFile (h : s.Placed front names first) (hf : PlainFingerprint f) : s.NamesFile f :=
  isPart_fileName h.suffix_plain hf

theorem blobPath_below (h : s.Placed front names first) (name : Option KeyName) (v : UInt32)
    (hf : s.NamesFile f) :
    (s.blobPath (name.map KeyName.text) v f).Below front (s.place names name v f) :=
  (h.versionDir_below name v).join hf.1 hf.2

/-- No path leads to a file with an overlong name. -/
theorem not_fits_of_long (h : s.Placed front names first) (name : Option KeyName) (v : UInt32)
    (hf : PlainFingerprint f)
    (hlong : Tree.maxNameLength < (s.fileName f).utf8ByteSize) :
    ¬ (s.blobPath (name.map KeyName.text) v f).Fits := by
  intro hfits
  have hpart : s.fileName f ∈ (s.blobPath (name.map KeyName.text) v f).parts := by
    rw [(h.blobPath_below name v (h.namesFile hf)).parts_eq, place]
    simp
  exact absurd (hfits.part_le _ hpart) (Nat.not_le.mpr hlong)

theorem parent_keyDir (h : s.Placed front names first) (name : Option KeyName) :
    (s.keyDir (name.map KeyName.text)).parent = s.root := by
  rw [keyDir, getD_defaultKeyName]
  exact Path.parent_join h.root_below.ending_eq (isPart_shownKeyName name).1

theorem parent_versionDir (h : s.Placed front names first) (name : Option KeyName) (v : UInt32) :
    (s.versionDir name v).parent = s.keyDir (name.map KeyName.text) :=
  Path.parent_join (h.keyDir_below name).ending_eq (isPart_toString v).1

theorem parent_blobPath (h : s.Placed front names first) (name : Option KeyName) (v : UInt32)
    (hf : s.NamesFile f) :
    (s.blobPath (name.map KeyName.text) v f).parent = s.versionDir name v :=
  Path.parent_join (h.versionDir_below name v).ending_eq hf.1

/-- The directory that a copy is put into. -/
theorem holderOf_blobPath (h : s.Placed front names first) (name : Option KeyName) (v : UInt32)
    (hf : s.NamesFile f) :
    Tree.holderOf (s.blobPath (name.map KeyName.text) v f) = s.versionDir name v := by
  have hne : versionNames names name v ≠ [] :=
    List.append_ne_nil_of_right_ne_nil _ (List.cons_ne_nil _ _)
  rw [(h.blobPath_below name v hf).holderOf hne, h.parent_blobPath name v hf]

end Placed

namespace Mirrors

theorem absent (h : s.Mirrors front dir names first t r) (hs : s.Placed front names first)
    (hnone : r.copies name v f = none) :
    t.find? (dir ++ s.place names name v f) = none := by
  have hhead := hs.head_place name v f
  cases hnode : t.find? (dir ++ s.place names name v f) with
  | none => rfl
  | some node =>
    cases node with
    | directory =>
      obtain ⟨name', v', b, hbelow, -⟩ := h.directories _ hhead hnode
      have hlen := congrArg List.length hbelow
      simp [place, versionNames] at hlen
    | file content mode =>
      obtain ⟨name', v', f', hplace, hsome⟩ := h.files _ content mode hhead hnode
      obtain ⟨entry, hentry⟩ := Option.isSome_iff_exists.mp hsome
      obtain ⟨rfl, rfl, rfl⟩ := place_injective hplace
      rw [hnone] at hentry
      cases hentry
    | link target => exact absurd hnode (h.site.link_free _ hhead target)

/-- Nothing stands in the way of a version's directory. -/
theorem chain (h : s.Mirrors front dir names first t r) (hs : s.Placed front names first)
    (name : Option KeyName) (v : UInt32) : t.Chain dir (versionNames names name v) := by
  intro a b hab
  cases a with
  | nil =>
    rw [List.append_nil]
    exact .inr h.site.directory
  | cons x a =>
    have hhead : (x :: a).head? = some first := by
      have hnames := hs.head_version name v
      rw [hab] at hnames
      exact hnames
    cases hnode : t.find? (dir ++ x :: a) with
    | none => exact .inl rfl
    | some node =>
      cases node with
      | directory => exact .inr rfl
      | file content mode =>
        obtain ⟨name', v', f', hplace, -⟩ := h.files _ content mode hhead hnode
        have hlen := congrArg List.length hab
        rw [hplace] at hlen
        simp [place, versionNames] at hlen
      | link target => exact absurd hnode (h.site.link_free _ hhead target)

/-- Directories on the way to a copy change nothing in the register. -/
theorem laid (h : s.Mirrors front dir names first t r)
    (hlaid : t.Laid t' dir (versionNames names name v) (s.versionDir name v)) :
    s.Mirrors front dir names first t' r where
  site := hlaid.site h.site
  directories := by
    intro below hhead hnode
    rcases hlaid.new _ _ hnode with hold | ⟨-, a, b, hab, -, hloc, hfits⟩
    · exact h.directories below hhead hold
    · rw [List.append_cancel_left hloc]
      exact ⟨name, v, b, hab, hfits⟩
  files := by
    intro below content mode hhead hnode
    rcases hlaid.new _ _ hnode with hold | ⟨hdirectory, -⟩
    · exact h.files below content mode hhead hold
    · cases hdirectory
  filed := by
    intro name' v' f' entry' hcopy
    obtain ⟨content, mode, seed, trusted, hnode, hwrap⟩ := h.filed name' v' f' entry' hcopy
    exact ⟨content, mode, seed, trusted, hlaid.grows _ _ hnode, hwrap⟩
  sane := h.sane

/-- A new copy, put into the directory of its version, is a new line of the register. -/
theorem put (h : s.Mirrors front dir names first t r) (hs : s.Placed front names first)
    (hf : PlainFingerprint f) (hnone : r.copies name entry.version f = none)
    (hdir : t.find? (dir ++ versionNames names name entry.version) = some .directory)
    (hfits : (s.blobPath (name.map KeyName.text) entry.version f).Fits)
    {seed : Octets s.wrapper.seedLength} {trusted : Bool} {content : Bytes}
    (hwrap : s.wrapper.wrap seed (KeyFile.single name entry).encode f trusted = .ok content)
    (mode : Nat) :
    s.Mirrors front dir names first
      (t.put (dir ++ versionNames names name entry.version ++ [s.fileName f]) (.file content mode))
      (r.insert name entry f) := by
  have habsent := h.absent hs hnone
  rw [place, ← List.append_assoc] at habsent
  have hgrows := Tree.grows_put habsent (.file content mode)
  -- the new tree is the old one but for the new file, which is no directory and no link
  have hput : ∀ loc, (t.put (dir ++ versionNames names name entry.version ++ [s.fileName f])
      (.file content mode)).find? loc =
        if loc = dir ++ s.place names name entry.version f then some (.file content mode)
        else t.find? loc := by
    intro loc
    rw [Tree.find?_put, place, ← List.append_assoc]
  have hold : ∀ loc node, (∀ content mode, node ≠ .file content mode) →
      (t.put (dir ++ versionNames names name entry.version ++ [s.fileName f])
        (.file content mode)).find? loc = some node → t.find? loc = some node := by
    intro loc node hnode hfound
    rw [hput] at hfound
    split at hfound
    · exact absurd (Option.some.inj hfound).symm (hnode content mode)
    · exact hfound
  constructor
  case site =>
    refine h.site.grows (h.site.sound.put hdir habsent _) hgrows fun below hhead target hnode => ?_
    exact h.site.link_free below hhead target (hold _ _ (by simp) hnode)
  case directories =>
    exact fun below hhead hnode => h.directories below hhead (hold _ _ (by simp) hnode)
  case files =>
    intro below content' mode' hhead hnode
    rw [hput] at hnode
    split at hnode
    · rename_i hloc
      refine ⟨name, entry.version, f, List.append_cancel_left hloc, ?_⟩
      rw [Register.copies_insert, if_pos ⟨rfl, rfl, rfl⟩]
      rfl
    · obtain ⟨name', v', f', hplace, hsome⟩ := h.files below content' mode' hhead hnode
      refine ⟨name', v', f', hplace, ?_⟩
      rw [Register.copies_insert]
      split
      · rfl
      · exact hsome
  case filed =>
    intro name' v' f' entry' hcopy
    rcases Register.insert_copies_cases hcopy with ⟨rfl, rfl, rfl, rfl⟩ | hcopy
    · exact ⟨content, mode, seed, trusted, by rw [hput, if_pos rfl], hwrap⟩
    · obtain ⟨content', mode', seed', trusted', hnode, hwrap'⟩ := h.filed name' v' f' entry' hcopy
      exact ⟨content', mode', seed', trusted', hgrows _ _ hnode, hwrap'⟩
  case sane =>
    intro name' v' f' entry' hcopy
    rcases Register.insert_copies_cases hcopy with ⟨rfl, rfl, rfl, rfl⟩ | hcopy
    · exact ⟨rfl, hf, hfits⟩
    · exact h.sane name' v' f' entry' hcopy

theorem drawing (h : s.Mirrors front dir names first t r) (n : Nat) :
    s.Mirrors front dir names first t { r with drawn := n } :=
  ⟨h.site, h.directories, h.files, h.filed, h.sane⟩

/-- Whether a recipient has a copy is seen at its place. -/
theorem presence_blobPath (h : s.Mirrors front dir names first t r)
    (hs : s.Placed front names first) (name : Option KeyName) (v : UInt32)
    (hf : PlainFingerprint f) :
    t.presence (s.blobPath (name.map KeyName.text) v f) ≠ .absent ↔ (r.copies name v f).isSome := by
  have hbelow := hs.blobPath_below name v (hs.namesFile hf)
  have hhead := hs.head_place name v f
  cases hcopy : r.copies name v f with
  | none =>
    rw [h.site.presence_of_none hbelow hhead (h.absent hs hcopy)]
    simp
  | some entry =>
    obtain ⟨content, mode, -, -, hnode, -⟩ := h.filed name v f entry hcopy
    have hfits := (h.sane name v f entry hcopy).2.2
    rw [Tree.presence, h.site.lookup_of_some hbelow hhead hfits hnode]
    simp

/-! ### What lies where -/

/-- The directory of a version holds just copies of it. -/
theorem copy_of_version (h : s.Mirrors front dir names first t r) (hs : s.Placed front names first)
    {file : String} {node : Node}
    (hnode : t.find? (dir ++ versionNames names name v ++ [file]) = some node) :
    ∃ f, file = s.fileName f ∧ PlainFingerprint f ∧ (r.copies name v f).isSome := by
  have hhead : (versionNames names name v ++ [file]).head? = some first :=
    head?_append_of_some (hs.head_version name v)
  rw [List.append_assoc] at hnode
  cases node with
  | directory =>
    obtain ⟨name', v', b, hbelow, -⟩ := h.directories _ hhead hnode
    have hlen := congrArg List.length hbelow
    simp [versionNames] at hlen
  | file content mode =>
    obtain ⟨name', v', f, hplace, hsome⟩ := h.files _ content mode hhead hnode
    obtain ⟨entry, hentry⟩ := Option.isSome_iff_exists.mp hsome
    obtain ⟨-, hf, -⟩ := h.sane _ _ _ _ hentry
    -- both places are three names below the store's directory
    simp only [place, versionNames, List.append_assoc, List.cons_append, List.nil_append] at hplace
    have hparts := List.append_cancel_left hplace
    simp only [List.cons.injEq, and_true] at hparts
    obtain ⟨hname, hv, hfile⟩ := hparts
    cases shownKeyName_injective hname
    cases toString_injective hv
    exact ⟨f, hfile, hf, hsome⟩
  | link target => exact absurd hnode (h.site.link_free _ hhead target)

/-- The directory of a key holds directories of versions, and nothing that could be taken for one. -/
theorem version_of_key (h : s.Mirrors front dir names first t r) (hs : s.Placed front names first)
    {d : String} (hdir : t.find? (dir ++ (names ++ [shownKeyName name]) ++ [d]) = some .directory) :
    ∃ v : UInt32, d = toString v := by
  have hhead : (names ++ [shownKeyName name] ++ [d]).head? = some first := by
    rw [List.append_assoc]
    exact head?_append_of_some hs.head_eq
  rw [List.append_assoc] at hdir
  obtain ⟨name', v', b, hbelow, -⟩ := h.directories _ hhead hdir
  simp only [versionNames, List.append_assoc, List.cons_append, List.nil_append] at hbelow
  have hparts := List.append_cancel_left hbelow
  simp only [List.cons.injEq] at hparts
  exact ⟨v', hparts.2.1.symm⟩

theorem versionDir_fits (h : s.Mirrors front dir names first t r) (hs : s.Placed front names first)
    (hdir : t.find? (dir ++ versionNames names name v) = some .directory) :
    (s.versionDir name v).Fits := by
  obtain ⟨name', v', b, hbelow, hfits⟩ := h.directories _ (hs.head_version name v) hdir
  simp only [versionNames, List.append_assoc, List.cons_append, List.nil_append] at hbelow
  have hparts := List.append_cancel_left hbelow
  simp only [List.cons.injEq] at hparts
  obtain ⟨hname, hv, hb⟩ := hparts
  cases shownKeyName_injective hname
  cases toString_injective hv
  rw [← hb] at hfits
  exact hfits

theorem keyDir_fits (h : s.Mirrors front dir names first t r) (hs : s.Placed front names first)
    (hdir : t.find? (dir ++ (names ++ [shownKeyName name])) = some .directory) :
    (s.keyDir (name.map KeyName.text)).Fits := by
  obtain ⟨name', v', b, hbelow, hfits⟩ := h.directories _ (head?_append_of_some hs.head_eq) hdir
  simp only [versionNames, List.append_assoc, List.cons_append, List.nil_append] at hbelow
  have hparts := List.append_cancel_left hbelow
  simp only [List.cons.injEq] at hparts
  obtain ⟨hname, hb⟩ := hparts
  cases shownKeyName_injective hname
  rw [← hb] at hfits
  exact hs.parent_versionDir name v' ▸ hfits

theorem root_fits (h : s.Mirrors front dir names first t r) (hs : s.Placed front names first)
    (hdir : t.find? (dir ++ names) = some .directory) : s.root.Fits := by
  obtain ⟨name', v', b, hbelow, hfits⟩ := h.directories _ hs.head_eq hdir
  have hb : [shownKeyName name', toString v'] = b := List.append_cancel_left hbelow
  rw [← hb] at hfits
  have hparent : (s.versionDir name' v').parent.parent = s.root := by
    rw [hs.parent_versionDir, hs.parent_keyDir]
  exact hparent ▸ hfits

/-- Above a copy there is the directory of its version. -/
theorem directory_of_copy (h : s.Mirrors front dir names first t r)
    (hcopy : (r.copies name v f).isSome) :
    t.find? (dir ++ versionNames names name v) = some .directory := by
  obtain ⟨entry, hentry⟩ := Option.isSome_iff_exists.mp hcopy
  obtain ⟨content, mode, seed, trusted, hnode, -⟩ := h.filed name v f entry hentry
  rw [place, ← List.append_assoc] at hnode
  exact h.site.sound.held _ _ _ hnode

end Mirrors

end

end Store

end RepoSeal
