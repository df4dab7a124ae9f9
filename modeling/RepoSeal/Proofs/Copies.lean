import RepoSeal.Proofs.KeyFields
import RepoSeal.Proofs.KeyVersions
import RepoSeal.Proofs.Sites
import RepoSeal.Sharing.Store

/-!
# RepoSeal — where copies of keys lie

A copy of a key lies at a place that tells its key, its version and its recipient: the names of its
directories and of its file are read back as these (`keyOfDirectory_shownKeyName`, `version?_toString`,
`fingerprintOf_fileName`). So different copies have different places.
-/

namespace RepoSeal

/-- A fingerprint that can be the front of a file name. -/
structure PlainFingerprint (fingerprint : String) : Prop where
  ne_empty : fingerprint ≠ ""
  no_slash : '/' ∉ fingerprint.toList
  no_dot : fingerprint.toList.head? ≠ some '.'

instance (fingerprint : String) : Decidable (PlainFingerprint fingerprint) :=
  decidable_of_iff
    (fingerprint ≠ "" ∧ '/' ∉ fingerprint.toList ∧ fingerprint.toList.head? ≠ some '.')
    ⟨fun h => ⟨h.1, h.2.1, h.2.2⟩, fun h => ⟨h.ne_empty, h.no_slash, h.no_dot⟩⟩

/-- A fingerprint whose file is not passed over when a store is listed. -/
structure ListedFingerprint (fingerprint : String) : Prop where
  ne_empty : fingerprint ≠ ""
  no_dot : fingerprint.toList.head? ≠ some '.'

theorem PlainFingerprint.listed {fingerprint : String} (h : PlainFingerprint fingerprint) :
    ListedFingerprint fingerprint :=
  ⟨h.ne_empty, h.no_dot⟩

/-! ## Names of directories -/

theorem isPart_of_keyName (n : KeyName) : Path.IsPart n.text ∧ n.text ≠ ".." := by
  obtain ⟨hempty, -, hchars, -⟩ := keyNameFlaw_eq_none.mp n.valid
  have hno : ∀ c, isKeyNameChar c = false → c ∉ n.text.toList := by
    intro c hc hmem
    rw [hchars c hmem] at hc
    cases hc
  refine ⟨⟨hempty, hno '/' (by decide), ?_⟩, ?_⟩
  · intro hdot
    exact hno '.' (by decide) (by rw [hdot]; decide)
  · intro hup
    exact hno '.' (by decide) (by rw [hup]; decide)

theorem isPart_shownKeyName (name : Option KeyName) :
    Path.IsPart (shownKeyName name) ∧ shownKeyName name ≠ ".." := by
  cases name with
  | none => exact ⟨⟨by decide, by decide, by decide⟩, by decide⟩
  | some n => exact isPart_of_keyName n

theorem getD_defaultKeyName (name : Option KeyName) :
    (name.map KeyName.text).getD defaultKeyName = shownKeyName name := by
  cases name with
  | none => rfl
  | some n => rfl

namespace Store

theorem keyOfDirectory_shownKeyName (name : Option KeyName) :
    keyOfDirectory (shownKeyName name) = some name := by
  cases name with
  | none => exact if_pos rfl
  | some n =>
    have hreserved : n.text ≠ defaultKeyName := (keyNameFlaw_eq_none.mp n.valid).2.1
    show keyOfDirectory n.text = some (some n)
    rw [keyOfDirectory, if_neg hreserved, n.ofText_text]

theorem shownKeyName_injective {a b : Option KeyName} (h : shownKeyName a = shownKeyName b) :
    a = b := by
  have ha := keyOfDirectory_shownKeyName a
  rw [h, keyOfDirectory_shownKeyName] at ha
  exact (Option.some.inj ha).symm

/-! ## Versions -/

theorem digits_toString (v : UInt32) :
    (toString v).toList = Nat.toDigits 10 v.toNat := by
  show (String.ofList (Nat.toDigits 10 v.toNat)).toList = _
  rw [String.toList_ofList]

theorem isDigit_of_mem_toString {v : UInt32} {c : Char} (h : c ∈ (toString v).toList) :
    c.isDigit = true := by
  rw [digits_toString] at h
  exact Nat.isDigit_of_mem_toDigits (by decide) (by decide) h

theorem isPart_toString (v : UInt32) : Path.IsPart (toString v) ∧ toString v ≠ ".." := by
  have hno : ∀ c : Char, c.isDigit = false → c ∉ (toString v).toList := by
    intro c hc hmem
    rw [isDigit_of_mem_toString hmem] at hc
    cases hc
  refine ⟨⟨fun hempty => ?_, hno '/' (by decide), fun hdot => ?_⟩, fun hup => ?_⟩
  · exact Nat.toDigits_ne_nil ((digits_toString v).symm.trans (by rw [hempty]; rfl))
  · exact hno '.' (by decide) (by rw [hdot]; decide)
  · exact hno '.' (by decide) (by rw [hup]; decide)

/-- A version is read back from the name of its directory. -/
theorem version?_toString (v : UInt32) : version? (toString v) = some v := by
  have hvalue : (Nat.toDigits 10 v.toNat).foldl (fun n c => n * 10 + (c.toNat - 48)) 0 = v.toNat := by
    have h := Nat.ofDigitChars_toDigits (b := 10) (n := v.toNat) (by decide) (by decide)
    rw [Nat.ofDigitChars_eq_foldl] at h
    simpa [Nat.mul_comm] using h
  have hdigits : ∀ c ∈ Nat.toDigits 10 v.toNat, c.isDigit = true := fun c hc =>
    Nat.isDigit_of_mem_toDigits (by decide) (by decide) hc
  obtain ⟨c, cs, hcs⟩ := List.exists_cons_of_ne_nil (Nat.toDigits_ne_nil (b := 10) (n := v.toNat))
  unfold version?
  rw [digits_toString]
  rw [hcs] at hvalue hdigits ⊢
  have hplus : c ≠ '+' := by
    rintro rfl
    exact absurd (hdigits '+' List.mem_cons_self) (by decide)
  have hall : (c :: cs).all Char.isDigit = true := List.all_eq_true.mpr hdigits
  split
  · rename_i heq
    exact absurd (List.cons.inj heq).1 hplus
  · dsimp only
    rw [hall, hvalue, if_pos v.toNat_lt, UInt32.ofNat_toNat]
    rfl

theorem toString_injective {v w : UInt32} (h : toString v = toString w) : v = w := by
  have hv := version?_toString v
  rw [h, version?_toString] at hv
  exact (Option.some.inj hv).symm

/-! ## Files -/

variable {s : Store}

/-- The name of the file that holds a recipient's copy. -/
def fileName (s : Store) (fingerprint : String) : String := fingerprint ++ "." ++ s.wrapper.suffix

/-- A recipient is read back from the name of the file. -/
theorem fingerprintOf_eq_some {file f : String} :
    s.fingerprintOf file = some f ↔ file = s.fileName f ∧ ListedFingerprint f := by
  have hname : ∀ g : String, (s.fileName g).toList = g.toList ++ ("." ++ s.wrapper.suffix).toList := by
    intro g
    rw [fileName, String.append_assoc, String.toList_append]
  constructor
  · intro h
    unfold fingerprintOf at h
    dsimp only at h
    split at h
    · rename_i hsuffix
      obtain ⟨front, hfront⟩ := List.isSuffixOf_iff_suffix.mp hsuffix
      rw [← hfront, List.length_append, Nat.add_sub_cancel, List.take_left] at h
      -- what stands in front of the suffix is the fingerprint, unless that is passed over
      have hf : f = String.ofList front ∧ front ≠ [] ∧ front.head? ≠ some '.' := by
        split at h
        · cases h
        · cases h
        · rename_i hne hdot
          cases h
          refine ⟨rfl, hne, fun hhead => ?_⟩
          obtain ⟨rest, hrest⟩ := List.head?_eq_some_iff.mp hhead
          exact hdot rest hrest
      obtain ⟨rfl, hne, hdot⟩ := hf
      refine ⟨?_, fun hempty => hne ?_, ?_⟩
      · rw [← String.toList_inj, hname, String.toList_ofList, hfront]
      · rw [← String.toList_ofList (l := front), hempty]
        rfl
      · rwa [String.toList_ofList]
    · cases h
  · rintro ⟨rfl, hf⟩
    obtain ⟨c, cs, hcs⟩ := List.exists_cons_of_ne_nil fun hnil =>
      hf.ne_empty (String.toList_eq_nil_iff.mp hnil)
    have hdot : c ≠ '.' := by
      rintro rfl
      exact hf.no_dot (by rw [hcs]; rfl)
    unfold fingerprintOf
    dsimp only
    rw [hname, if_pos (by simp), List.length_append, Nat.add_sub_cancel, List.take_left, hcs]
    split
    · rename_i heq
      cases heq
    · rename_i heq
      exact absurd (List.cons.inj heq).1 hdot
    · rw [← hcs, String.ofList_toList]

theorem fingerprintOf_fileName {f : String} (hf : PlainFingerprint f) :
    s.fingerprintOf (s.fileName f) = some f :=
  fingerprintOf_eq_some.mpr ⟨rfl, hf.listed⟩

/-- A fingerprint whose file has an ordinary name. -/
def NamesFile (s : Store) (f : String) : Prop := Path.IsPart (s.fileName f) ∧ s.fileName f ≠ ".."

theorem isPart_fileName (hsuffix : '/' ∉ s.wrapper.suffix.toList) {f : String}
    (hf : PlainFingerprint f) : s.NamesFile f := by
  have hfile : (s.fileName f).toList = f.toList ++ '.' :: s.wrapper.suffix.toList := by
    rw [fileName, String.append_assoc, String.toList_append, String.toList_append]
    rfl
  have hne : f.toList ≠ [] := fun hnil => hf.ne_empty (String.toList_eq_nil_iff.mp hnil)
  -- the name of the file begins like the fingerprint, so not with a dot
  have hhead : (s.fileName f).toList.head? ≠ some '.' := by
    rw [hfile, List.head?_append_of_ne_nil _ hne]
    exact hf.no_dot
  refine ⟨⟨fun hempty => ?_, ?_, fun hdot => hhead ?_⟩, fun hup => hhead ?_⟩
  · rw [hempty] at hfile
    exact absurd hfile.symm (List.append_ne_nil_of_left_ne_nil hne _)
  · rw [hfile, List.mem_append, List.mem_cons]
    rintro (h | h | h)
    · exact hf.no_slash h
    · exact absurd h (by decide)
    · exact hsuffix h
  · rw [hdot]
    rfl
  · rw [hup]
    rfl

theorem fileName_injective {f g : String} (h : s.fileName f = s.fileName g) : f = g := by
  rw [fileName, fileName, ← String.toList_inj] at h
  simp only [String.toList_append, List.append_assoc] at h
  exact String.toList_inj.mp (List.append_cancel_right h)

end Store

end RepoSeal
