import RepoSeal.Proofs.KeyMaterial
import RepoSeal.Proofs.KeyRuns

/-!
# RepoSeal — key material does not show

Reading a key file takes the same steps whatever the material of its keys is: data that differs at key
material only is refused with the same error, or read as two key files of one name with the same
versions (`Alike`, `SameVersions`, `load_alike`). From there on the material does not show either: two
such key files are displayed alike, and whatever is done with them fails alike (`material_hidden`).
-/

namespace RepoSeal

open List (Forall₂)

/-! ## Results that are alike -/

/-- Two results that are the same failure, or two values that are related. -/
inductive Alike {α : Type} (R : α → α → Prop) : Except Error α → Except Error α → Prop
  | ok {a b : α} (h : R a b) : Alike R (.ok a) (.ok b)
  | error (e : Error) : Alike R (.error e) (.error e)

namespace Alike

variable {α β : Type} {R : α → α → Prop} {S : β → β → Prop} {x y : Except Error α}

theorem refl (hR : ∀ a, R a a) (x : Except Error α) : Alike R x x := by
  cases x with
  | ok a => exact .ok (hR a)
  | error e => exact .error e

/-- What goes on alike from values that are related is alike. -/
theorem bind {f g : α → Except Error β} (h : Alike R x y)
    (hfg : ∀ a b, R a b → Alike S (f a) (g b)) : Alike S (x >>= f) (y >>= g) := by
  cases h with
  | ok h => exact hfg _ _ h
  | error e => exact .error e

theorem map {f g : α → β} (h : Alike R x y) (hfg : ∀ a b, R a b → S (f a) (g b)) :
    Alike S (x.map f) (y.map g) := by
  cases h with
  | ok h => exact .ok (hfg _ _ h)
  | error e => exact .error e

end Alike

/-! ## Key files with the same versions -/

theorem KeyEntry.display_eq {e e' : KeyEntry} (h : e'.version = e.version) :
    e'.display = e.display := by
  unfold display
  rw [h]

namespace KeyFile

/-- Two key files of one name with the same versions. -/
structure SameVersions (a b : KeyFile) : Prop where
  name_eq : b.name = a.name
  versions_eq : b.entries.map KeyEntry.version = a.entries.map KeyEntry.version

namespace SameVersions

variable {a b : KeyFile}

theorem refl (a : KeyFile) : SameVersions a a := ⟨rfl, rfl⟩

/-- The order of the versions is settled by what versions there are. -/
theorem of_mem (hname : b.name = a.name)
    (h : ∀ v, (∃ e ∈ a.entries, e.version = v) ↔ ∃ e ∈ b.entries, e.version = v) :
    SameVersions a b := by
  have hperm : (b.entries.map KeyEntry.version).Perm (a.entries.map KeyEntry.version) := by
    refine (List.perm_ext_iff_of_nodup b.versions_nodup a.versions_nodup).mpr fun v => ?_
    rw [List.mem_map, List.mem_map, h v]
  have hdescending : ∀ kf : KeyFile, (kf.entries.map KeyEntry.version).Pairwise (· > ·) :=
    fun kf => List.pairwise_map.mpr kf.descending
  exact ⟨hname, hperm.eq_of_pairwise (fun x y _ _ hxy hyx => absurd (UInt32.lt_trans hxy hyx)
    (UInt32.lt_irrefl _)) (hdescending b) (hdescending a)⟩

theorem mem_iff (h : SameVersions a b) (v : UInt32) :
    (∃ e ∈ a.entries, e.version = v) ↔ ∃ e ∈ b.entries, e.version = v := by
  have hmem := congrArg (v ∈ ·) h.versions_eq
  rw [eq_iff_iff, List.mem_map, List.mem_map] at hmem
  exact hmem.symm

theorem latest?_eq (h : SameVersions a b) : b.latest? = a.latest? := by
  rw [latest?, latest?, ← List.head?_map, ← List.head?_map, h.versions_eq]

/-- What depends on the versions of entries only is the same for both key files. -/
theorem map_eq {α : Type} {f : KeyEntry → α} (h : SameVersions a b)
    (hf : ∀ e e' : KeyEntry, e'.version = e.version → f e' = f e) :
    b.entries.map f = a.entries.map f := by
  -- the entry of a version with blank material stands for all of them
  have hblank : ∀ kf : KeyFile, kf.entries.map f = (kf.entries.map KeyEntry.version).map
      fun v => f (.ofMaterial v (.replicate 96 0)) := by
    intro kf
    rw [List.map_map]
    exact List.map_congr_left fun e _ => hf _ _ rfl
  rw [hblank, hblank, h.versions_eq]

theorem shownName_eq (h : SameVersions a b) : b.shownName = a.shownName := by
  rw [shownName, shownName, h.name_eq]

end SameVersions

theorem add_alike {a b : KeyFile} {e e' : KeyEntry} (h : SameVersions a b)
    (he : e'.version = e.version) : Alike SameVersions (a.add e) (b.add e') := by
  cases ha : a.add e with
  | error err =>
    obtain ⟨rfl, hthere⟩ := add_eq_error.mp ha
    have hb : b.add e' = .error (.malformed (.duplicateVersion e.version)) := by
      rw [← he] at hthere ⊢
      exact add_eq_error.mpr ⟨rfl, (h.mem_iff _).mp hthere⟩
    rw [hb]
    exact .error _
  | ok a' =>
    obtain ⟨hnew, hname, hmem⟩ := add_eq_ok_iff.mp ha
    obtain ⟨b', hb⟩ : ∃ b', b.add e' = .ok b' := by
      refine exists_add fun x hx hv => ?_
      obtain ⟨y, hy, hyv⟩ := (h.mem_iff e.version).mpr ⟨x, hx, hv.trans he⟩
      exact hnew y hy hyv
    obtain ⟨-, hname', hmem'⟩ := add_eq_ok_iff.mp hb
    rw [hb]
    refine .ok (.of_mem (by rw [hname, hname', h.name_eq]) fun v => ?_)
    have hold := h.mem_iff v
    simp only [hmem, hmem', or_and_right, exists_or, exists_eq_left, he, hold]

/-! ### Reading -/

section Reading

open Reader

variable {σ : Input.Setting}

/-- Two drafts that differ in key material only. -/
structure SameDraft (d d' : KeyEntry.Draft) : Prop where
  version_eq : d'.version = d.version
  cipherKey_eq : d'.cipherKey.isSome = d.cipherKey.isSome
  digestKey_eq : d'.digestKey.isSome = d.digestKey.isSome

theorem absorb_alike {d d' : KeyEntry.Draft} {f g : TaggedField} (hd : SameDraft d d')
    (h : Twin .entry f g) :
    Alike SameDraft (KeyEntry.layout.absorb d f) (KeyEntry.layout.absorb d' g) := by
  obtain ⟨hid, hlength, hpayload⟩ := h
  obtain ⟨hversion, hcipher, hdigest⟩ := hd
  unfold Layout.absorb
  rw [hid, hlength]
  cases KeyEntry.layout.headError? f.id f.length with
  | some e => exact .error e
  | none =>
    dsimp only
    by_cases hc : f.id = KeyEntry.cipherKeyField
    · rw [hc, KeyEntry.layout_rule_cipherKey]
      exact .ok ⟨hversion, rfl, hdigest⟩
    by_cases hk : f.id = KeyEntry.digestKeyField
    · rw [hk, KeyEntry.layout_rule_digestKey]
      exact .ok ⟨hversion, hcipher, rfl⟩
    rw [hpayload fun h => h.2.elim hc hk]
    by_cases hv : f.id = KeyEntry.versionField
    · rw [hv, KeyEntry.layout_rule_version]
      exact .ok ⟨rfl, hcipher, hdigest⟩
    · rw [KeyEntry.layout_rule_of_ne hv hc hk]
      exact .ok ⟨hversion, hcipher, hdigest⟩

theorem absorbAll_alike {d d' : KeyEntry.Draft} {fs gs : List TaggedField}
    (h : Forall₂ (Twin .entry) fs gs) (hd : SameDraft d d') :
    Alike SameDraft (KeyEntry.layout.absorbAll d fs) (KeyEntry.layout.absorbAll d' gs) := by
  induction h generalizing d d' with
  | nil => exact .ok hd
  | cons hfg _ ih =>
    rw [Layout.absorbAll_cons, Layout.absorbAll_cons]
    exact (absorb_alike hd hfg).bind fun _ _ => ih

/-- Whether something is missing in an entry does not depend on key material. -/
theorem whole_alike {d d' : KeyEntry.Draft} (h : SameDraft d d') :
    Alike (fun e e' => e'.version = e.version) d.whole d'.whole := by
  obtain ⟨hversion, hcipher, hdigest⟩ := h
  obtain ⟨v, c, k⟩ := d
  obtain ⟨v', c', k'⟩ := d'
  cases hversion
  cases v with
  | none => exact .error _
  | some v =>
    match c, c', hcipher with
    | none, none, _ => exact .error _
    | some c, some c', _ =>
      match k, k', hdigest with
      | none, none, _ => exact .error _
      | some k, some k', _ => exact .ok rfl

theorem readCutting_alike {τ : Type} {R : τ → τ → Prop} (l : Layout τ) {st st' : τ}
    {fs gs : List TaggedField} {tail tail' : FieldTail}
    (h : Alike R (l.absorbAll st fs) (l.absorbAll st' gs)) (htail : TwinTail tail tail') :
    Alike (fun p p' => R p.1 p'.1 ∧ DifferOnlyAt (MaterialAt .entry p.2) p.2 p'.2)
      (l.readCutting σ st fs tail) (l.readCutting σ st' gs tail') := by
  refine h.bind fun a b hab => ?_
  cases htail with
  | closed hrest => exact .ok ⟨hab, hrest⟩
  | inHead part hlen hend => exact .error _
  | inPayload id length hid hlen hlen' => exact .error _

/-- Reading an entry goes on alike from the bytes that remain. -/
theorem readEntry_alike {i i' : Input} {b b' : Bytes} (hi : i.Delivers b σ)
    (hi' : i'.Delivers b' σ) (h : DifferOnlyAt (MaterialAt .entry b) b b') :
    ∃ r r', Yields (KeyEntry.read i) σ r ∧ Yields (KeyEntry.read i') σ r' ∧
      Alike (fun p p' => p'.1.version = p.1.version ∧
        DifferOnlyAt (MaterialAt .entry p.2) p.2 p'.2) r r' := by
  obtain ⟨fs, tail, rfl⟩ := exists_cutting b
  obtain ⟨gs, tail', rfl, hrow, htail⟩ := exists_twins fs tail h
  refine ⟨_, _, KeyEntry.read_yields fs tail hi, KeyEntry.read_yields gs tail' hi', ?_⟩
  refine (readCutting_alike KeyEntry.layout (absorbAll_alike hrow ⟨rfl, rfl, rfl⟩) htail).bind
    fun p p' ⟨hdraft, hrest⟩ => ?_
  exact (whole_alike hdraft).map fun _ _ hversion => ⟨hversion, hrest⟩

/-- Reading entries into key files with the same versions. -/
theorem readEntries_alike (hσ : σ.Quiet) {a a' : KeyFile} {i i' : Input} {b b' : Bytes}
    (ha : SameVersions a a') (hi : i.Delivers b σ) (hi' : i'.Delivers b' σ)
    (h : DifferOnlyAt (MaterialAt .entry b) b b') :
    Alike SameVersions (readEntries a i).1 (readEntries a' i').1 := by
  -- the two readings keep step, so it is enough that one of them comes to an end
  induction hn : b.length using Nat.strongRecOn generalizing a a' i i' b b' with
  | ind n ih =>
    by_cases hb : b = []
    · subst hb
      have hb' : b' = [] := List.eq_nil_of_length_eq_zero h.length_eq
      subst hb'
      rw [readEntries_of_nil hσ a hi, readEntries_of_nil hσ a' hi']
      unfold closeWith
      cases σ.ending with
      | some fault => exact .error _
      | none => exact .ok ha
    · have hb' : b' ≠ [] := fun hnil => hb (List.eq_nil_of_length_eq_zero
        (h.length_eq.symm.trans (congrArg List.length hnil)))
      obtain ⟨j, hend, hj⟩ := atEnd_of_ne_nil hσ hi hb
      obtain ⟨j', hend', hj'⟩ := atEnd_of_ne_nil hσ hi' hb'
      obtain ⟨r, r', hread, hread', hr⟩ := readEntry_alike hj hj' h
      rw [readEntries_eq, hend, readEntries_eq, hend']
      dsimp only
      cases hr with
      | error e =>
        obtain ⟨_, hfail⟩ := eq_error_of_fst hread
        obtain ⟨_, hfail'⟩ := eq_error_of_fst hread'
        rw [hfail, hfail']
        exact .error e
      | @ok p p' hp =>
        obtain ⟨entry, rest⟩ := p
        obtain ⟨entry', rest'⟩ := p'
        obtain ⟨hversion, hrest⟩ := hp
        obtain ⟨k, hok, hk⟩ := hread.eq_ok
        obtain ⟨k', hok', hk'⟩ := hread'.eq_ok
        have hshort : rest.length < n := by
          have hle := KeyEntry.read_ok hok
          rw [hk.remaining_eq, hj.remaining_eq] at hle
          omega
        rw [hok, hok']
        dsimp only
        have hadd := add_alike ha hversion
        generalize a.add entry = s, a'.add entry' = s' at hadd
        cases hadd with
        | error e => exact .error e
        | ok hsame => exact ih _ hshort hsame hk hk' hrest rfl

theorem load_alike_of_preamble (hσ : σ.Quiet) {i i' : Input} {rest rest' : Bytes}
    (hi : i.Delivers (preamble formatVersion ++ rest) σ)
    (hi' : i'.Delivers (preamble formatVersion ++ rest') σ)
    (h : DifferOnlyAt (MaterialAt .header rest) rest rest') :
    Alike SameVersions (load i).1 (load i').1 := by
  obtain ⟨j, hj, hload⟩ := load_of_preamble hi
  obtain ⟨j', hj', hload'⟩ := load_of_preamble hi'
  obtain ⟨fs, tail, rfl⟩ := exists_cutting rest
  obtain ⟨gs, tail', rfl, hrow, htail⟩ := exists_twins fs tail h
  -- no material stands in the header, so its fields are the same
  obtain rfl : fs = gs := List.forall₂_eq_eq_eq ▸ hrow.imp fun _ _ => eq_of_twin_header
  have hread := headerLayout.readFields_yields none fs tail hj
  have hread' := headerLayout.readFields_yields none fs tail' hj'
  have hcut := readCutting_alike (σ := σ) headerLayout
    (.refl (fun _ => rfl) (headerLayout.absorbAll none fs)) htail
  rw [hload, hload']
  generalize headerLayout.readCutting σ none fs tail = r,
    headerLayout.readCutting σ none fs tail' = r' at hread hread' hcut
  cases hcut with
  | error e =>
    obtain ⟨_, hfail⟩ := eq_error_of_fst hread
    obtain ⟨_, hfail'⟩ := eq_error_of_fst hread'
    rw [hfail, hfail']
    exact .error e
  | @ok p p' hp =>
    obtain ⟨name, rest⟩ := p
    obtain ⟨name', rest'⟩ := p'
    obtain ⟨rfl, hrest⟩ := hp
    obtain ⟨k, hok, hk⟩ := hread.eq_ok
    obtain ⟨k', hok', hk'⟩ := hread'.eq_ok
    rw [hok, hok']
    exact readEntries_alike hσ (.refl _) hk hk' hrest

/-- Data that does not begin like a key file is refused at its beginning. -/
theorem load_of_not_preamble {i i' : Input} {b : Bytes} (hi : i.Delivers b σ)
    (hi' : i'.Delivers b σ) (h : ¬ preamble formatVersion <+: b) :
    ∃ e, (load i).1 = .error e ∧ (load i').1 = .error e := by
  by_cases hshort : b.length < 16
  · exact ⟨_, load_of_short hi hshort, load_of_short hi' hshort⟩
  obtain ⟨p, version, rest, hp, rfl⟩ := exists_preamble (Nat.le_of_not_lt hshort)
  by_cases hmagic : p = magic
  · subst hmagic
    have hversion : version ≠ formatVersion := by
      rintro rfl
      exact h (List.prefix_append _ _)
    exact ⟨_, load_of_version hversion hi, load_of_version hversion hi'⟩
  · exact ⟨_, load_of_foreign hp hmagic hi, load_of_foreign hp hmagic hi'⟩

/-- **Reading does not depend on key material**, whatever the source and however its data ends. -/
theorem load_alike (hσ : σ.Quiet) {i i' : Input} {b b' : Bytes} (hi : i.Delivers b σ)
    (hi' : i'.Delivers b' σ) (h : DifferOnlyAt (Material b) b b') :
    Alike SameVersions (load i).1 (load i').1 := by
  by_cases hpre : preamble formatVersion <+: b
  · obtain ⟨rest, rfl⟩ := hpre
    obtain ⟨p, rest', rfl, hp, hrest⟩ := h.split
    obtain rfl : p = preamble formatVersion := by
      refine hp.eq fun k hk hplace => ?_
      obtain ⟨j, hj, -⟩ := hplace.of_preamble
      rw [length_preamble] at hk
      omega
    refine load_alike_of_preamble hσ hi hi' (hrest.imp fun k hk => ?_)
    obtain ⟨j, hj, hplace⟩ := hk.of_preamble
    rw [length_preamble] at hj
    rwa [Nat.add_left_cancel hj]
  · obtain rfl : b' = b := by
      refine h.eq fun k _ hplace => ?_
      cases hplace with
      | behindPreamble h => exact hpre (List.prefix_append _ _)
    obtain ⟨e, he, he'⟩ := load_of_not_preamble hi hi' hpre
    rw [he, he']
    exact .error e

end Reading

/-! ### What is done with key files -/

section Operations

variable {a b : KeyFile}

theorem display_eq (h : SameVersions a b) : b.display = a.display := by
  unfold display
  rw [h.name_eq, List.map_reverse, List.map_reverse, h.map_eq fun e e' he => ?_]
  rw [he, KeyEntry.display_eq he]

theorem nextVersion_eq (h : SameVersions a b) : b.nextVersion = a.nextVersion := by
  rw [nextVersion, nextVersion, h.latest?_eq]

theorem generate_alike (h : SameVersions a b) (m m' : Octets 96) :
    Alike (fun r r' => r'.1 = r.1 ∧ SameVersions r.2 r'.2) (a.generate m) (b.generate m') := by
  unfold generate
  rw [nextVersion_eq h]
  cases a.nextVersion with
  | error e => exact .error e
  | ok v =>
    have hadd : Alike SameVersions (a.add (.ofMaterial v m)) (b.add (.ofMaterial v m')) :=
      add_alike h rfl
    exact hadd.bind fun _ _ h' => .ok ⟨rfl, h'⟩

theorem require_alike (h : SameVersions a b) (v : UInt32) :
    Alike (fun e e' => e'.version = e.version) (a.require v) (b.require v) := by
  unfold require
  rw [h.shownName_eq]
  cases ha : a.get? v with
  | none =>
    have hb : b.get? v = none := by
      refine get?_eq_none.mpr fun x hx hxv => ?_
      obtain ⟨y, hy, hyv⟩ := (h.mem_iff v).mpr ⟨x, hx, hxv⟩
      exact get?_eq_none.mp ha y hy hyv
    rw [hb]
    exact .error _
  | some e =>
    obtain ⟨he, hv⟩ := get?_eq_some.mp ha
    obtain ⟨e', he', hv'⟩ := (h.mem_iff v).mp ⟨e, he, hv⟩
    rw [get?_eq_some.mpr ⟨he', hv'⟩]
    exact .ok (hv'.trans hv.symm)

theorem requireLatest_alike (h : SameVersions a b) :
    Alike (fun e e' => e'.version = e.version) a.requireLatest b.requireLatest := by
  have hlatest : b.getLatest?.map KeyEntry.version = a.getLatest?.map KeyEntry.version :=
    h.latest?_eq
  unfold requireLatest
  rw [h.shownName_eq]
  cases ha : a.getLatest? with
  | none =>
    rw [ha, Option.map_none, Option.map_eq_none_iff] at hlatest
    rw [hlatest]
    exact .error _
  | some e =>
    rw [ha, Option.map_some, Option.map_eq_some_iff] at hlatest
    obtain ⟨e', hb, hv⟩ := hlatest
    rw [hb]
    exact .ok hv

theorem rename_alike (h : SameVersions a b) (name : Option String) :
    Alike SameVersions (a.rename name) (b.rename name) := by
  unfold rename
  cases name with
  | none => exact .ok ⟨rfl, h.versions_eq⟩
  | some text =>
    dsimp only
    cases KeyName.parse text with
    | error e => exact .error e
    | ok name => exact .ok ⟨rfl, h.versions_eq⟩

end Operations

/-- **Key material does not show.** Data that differs at key material only is read alike: it is refused
with the same error, or read as key files of one name with the same versions. Two such key files are
displayed alike, with their entries, and every operation on them fails with the same error or goes on
alike, whatever material it brings in. -/
theorem material_hidden :
    (∀ b b' : Bytes, DifferOnlyAt (Material b) b b' → Alike SameVersions (decode b) (decode b')) ∧
    ∀ a b : KeyFile, b.name = a.name →
      (∀ v, (∃ e ∈ a.entries, e.version = v) ↔ ∃ e ∈ b.entries, e.version = v) →
      b.display = a.display ∧
      b.entries.map KeyEntry.display = a.entries.map KeyEntry.display ∧
      (∀ e e' : KeyEntry, e'.version = e.version → Alike SameVersions (a.add e) (b.add e')) ∧
      (∀ w w' : World, Alike (fun r r' => r'.1 = r.1 ∧ SameVersions r.2 r'.2)
        (a.generateFresh.on w).1 (b.generateFresh.on w').1) ∧
      (∀ v, Alike (fun e e' => e'.version = e.version) (a.require v) (b.require v)) ∧
      Alike (fun e e' => e'.version = e.version) a.requireLatest b.requireLatest ∧
      ∀ name, Alike SameVersions (a.rename name) (b.rename name) := by
  refine ⟨fun b b' hdiffer => ?_, fun a b hname hversions => ?_⟩
  · exact load_alike Input.Setting.quiet_memory (Input.delivers_ofBytes b)
      (Input.delivers_ofBytes b') hdiffer
  · have hsame : SameVersions a b := .of_mem hname hversions
    refine ⟨display_eq hsame, hsame.map_eq fun e e' => KeyEntry.display_eq,
      fun e e' => add_alike hsame, fun w w' => ?_, require_alike hsame,
      requireLatest_alike hsame, rename_alike hsame⟩
    rw [result_generateFresh, result_generateFresh]
    exact generate_alike hsame _ _

/-- The data of a key file with two cipher keys in its entry. The second one counts, and every byte of
the first one is `x`. -/
def doubledKey (x : UInt8) : Bytes :=
  preamble formatVersion ++
    (Field.endMark ++ (be32 KeyEntry.cipherKeyField ++ be32 32 ++ (List.replicate 32 x ++
      (Field.encode KeyEntry.cipherKeyField (List.replicate 32 5) ++
        Field.encode KeyEntry.digestKeyField (List.replicate 64 9) ++
        Field.encode KeyEntry.versionField (be32 7) ++ Field.endMark))))

theorem differOnlyAt_doubledKey (x y : UInt8) :
    DifferOnlyAt (Material (doubledKey x)) (doubledKey x) (doubledKey y) := by
  have hplace : ∀ j < 32, Material (doubledKey x) (28 + j) := fun j hj => by
    rw [Nat.add_assoc 16 12 j, Nat.add_assoc 4 8 j]
    exact .behindPreamble (.endMark (.payload (.inl rfl) hj))
  have hsplit : ∀ z, doubledKey z =
      preamble formatVersion ++ (Field.endMark ++ (be32 KeyEntry.cipherKeyField ++ be32 32)) ++
        (List.replicate 32 z ++ _) := fun z => by
    simp only [doubledKey, List.append_assoc]
    rfl
  rw [hsplit x, hsplit y] at *
  exact differOnlyAt_of_part _ _ rfl hplace

theorem material_hidden_doubledKey :
    DifferOnlyAt (Material (doubledKey 1)) (doubledKey 1) (doubledKey 2) ∧
      Alike SameVersions (decode (doubledKey 1)) (decode (doubledKey 2)) ∧
      (KeyFile.mk none [.ofMaterial 7 (.replicate 96 2)] (List.pairwise_singleton _ _)).display =
        (KeyFile.mk none [.ofMaterial 7 (.replicate 96 1)] (List.pairwise_singleton _ _)).display := by
  refine ⟨differOnlyAt_doubledKey 1 2, material_hidden.1 _ _ (differOnlyAt_doubledKey 1 2),
    (material_hidden.2 _ _ rfl fun v => ?_).1⟩
  simp [KeyEntry.ofMaterial]

end KeyFile

end RepoSeal
