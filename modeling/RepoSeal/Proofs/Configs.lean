import Mathlib.Control.Monad.Basic
import RepoSeal.Config
import RepoSeal.Proofs.TomlBounds
import RepoSeal.Proofs.TomlLines

/-!
# RepoSeal — configurations are read as they were written

A configuration is written as a list of lines (`statements`), and these fill a table (`entries`) in
which every section and every key stands under the name by which it is looked for, and nothing else. So
a configuration that can be written is read as it was (`ofToml_toToml`). What has been read can be
written: no document holds an integer that is too great, and a section takes its numbers from the
document or keeps those it has by default (`SectionKey.Keeps`).
-/

namespace RepoSeal

open Toml

namespace Config

variable {c : Config}

/-! ## What is written -/

/-- The statements that a configuration is written as. A missing identity has none. -/
def statements (c : Config) : List Statement :=
  [.table ⟨[], "repo"⟩,
      .pair ⟨[], "state_dir"⟩ (.text c.places.stateDir.text),
      .pair ⟨[], "keys_dir"⟩ (.text c.places.keysDir.text),
      .table ⟨[], "crypto"⟩,
      .pair ⟨[], "spill_threshold_bytes"⟩ (.integer c.buffering.spillThreshold),
      .pair ⟨[], "io_buffer_size"⟩ (.integer c.buffering.pieceSize),
      .table ⟨[], "identity"⟩] ++
    (c.identities.file.toList.map fun p => .pair ⟨[], "age_identity"⟩ (.text p.text)) ++
    [.pair ⟨[], "trust_recipients"⟩ (.boolean c.identities.trustRecipients),
      .table ⟨[], "log"⟩,
      .pair ⟨[], "level"⟩ (.text c.logging.level),
      .pair ⟨[], "format"⟩ (.text c.logging.format)]

/-- The table that these statements fill. -/
def entries (c : Config) : Entries :=
  [("repo", .table .header
      [("state_dir", .text c.places.stateDir.text), ("keys_dir", .text c.places.keysDir.text)]),
    ("crypto", .table .header
      [("spill_threshold_bytes", .integer c.buffering.spillThreshold),
        ("io_buffer_size", .integer c.buffering.pieceSize)]),
    ("identity", .table .header
      ((c.identities.file.toList.map fun p => ("age_identity", .text p.text)) ++
        [("trust_recipients", .boolean c.identities.trustRecipients)])),
    ("log", .table .header
      [("level", .text c.logging.level), ("format", .text c.logging.format)])]

theorem isWritable_iff : c.isWritable = true ↔
    c.buffering.spillThreshold ≤ maxInteger ∧ c.buffering.pieceSize ≤ maxInteger := by
  simp [isWritable]

theorem readsLines_writeLines (h : c.isWritable = true) : ReadsLines c.writeLines c.statements := by
  obtain ⟨hspill, hpiece⟩ := isWritable_iff.1 h
  have hplaces := ((readsLines_header "repo" (by decide)).append
    (readsLines_pair "state_dir" (by decide) (reads_writeText c.places.stateDir.text))).append
    (readsLines_pair "keys_dir" (by decide) (reads_writeText c.places.keysDir.text))
  have hbuffering := ((hplaces.append (readsLines_header "crypto" (by decide)).blank).append
    (readsLines_pair "spill_threshold_bytes" (by decide) (reads_writeNumber hspill))).append
    (readsLines_pair "io_buffer_size" (by decide) (reads_writeNumber hpiece))
  have hfront := hbuffering.append (readsLines_header "identity" (by decide)).blank
  have hback := (((readsLines_pair "trust_recipients" (by decide)
    (reads_writeFlag c.identities.trustRecipients)).append
    (readsLines_header "log" (by decide)).blank).append
    (readsLines_pair "level" (by decide) (reads_writeText c.logging.level))).append
    (readsLines_pair "format" (by decide) (reads_writeText c.logging.format))
  cases hfile : c.identities.file with
  | none => simpa [writeLines, statements, hfile] using hfront.append hback
  | some p =>
    have hidentity := readsLines_pair "age_identity" (by decide) (reads_writeText p.text)
    simpa [writeLines, statements, hfile] using (hfront.append hidentity).append hback

theorem ofStatements_statements (c : Config) : Entries.ofStatements c.statements = some c.entries := by
  obtain ⟨places, buffering, ⟨file, trust⟩, logging⟩ := c
  cases file with
  | none => rfl
  | some p => rfl

theorem readEntries_entries (c : Config) : SectionKey.readEntries sections {} c.entries = some c := by
  obtain ⟨places, buffering, ⟨file, trust⟩, logging⟩ := c
  cases file with
  | none => rfl
  | some p => rfl

/-- A configuration that can be written is read as it was, unless it is refused for reading nothing at
a time. -/
theorem ofToml_toToml (h : c.isWritable = true) (hpiece : c.buffering.pieceSize ≠ 0) :
    ofToml c.toToml = .ok c := by
  have hparse : parse c.toToml = some c.entries := by
    have hread := (readsLines_writeLines h).readStatements_eq
    unfold parse
    rw [toToml, String.toList_ofList]
    show (readStatements c.writeLines).bind Entries.ofStatements = some c.entries
    rw [hread, Option.bind_some, ofStatements_statements]
  unfold ofToml
  rw [hparse, Option.bind_some, readEntries_entries]
  exact if_neg hpiece

end Config

/-! ## What is read -/

namespace SectionKey

variable {σ τ : Type} {P : σ → Prop} {keys : List (SectionKey σ)} {c c' : σ}

/-- That a key keeps a property of its section, as long as its value has no integer that is too
great. -/
def Keeps (P : σ → Prop) (key : SectionKey σ) : Prop :=
  ∀ ⦃v c c'⦄, v.Fits → P c → key.set v c = some c' → P c'

theorem keeps_ofNumber (name : String) {set : Nat → σ → σ}
    (hset : ∀ n c, n ≤ maxInteger → P c → P (set n c)) : Keeps P (ofNumber name set) := by
  intro v c c' hv hc h
  simp only [ofNumber] at h
  split at h
  · cases h
    cases hv with
    | integer hn => exact hset _ _ (Int.ofNat_le.1 hn) hc
  · cases h

section

variable (hkeys : ∀ key ∈ keys, Keeps P key) (hc : P c)

include hkeys hc

theorem keeps_readEntries {es : Entries} (hes : es.Fit) (h : readEntries keys c es = some c') : P c' := by
  refine foldlM_induction (P := P) (fun e he b b' hb hstep => ?_) hc h
  dsimp only at hstep
  split at hstep
  · next key hfind => exact hkeys key (List.mem_of_find?_eq_some hfind) (hes e he) hb hstep
  · cases hstep
    exact hb

theorem keeps_readItems {vs : List Value} (hvs : ∀ v ∈ vs, v.Fits)
    (h : SectionKey.readItems keys c vs = some c') : P c' := by
  refine foldlM_induction (P := P) (fun e he b b' hb hstep => ?_) hc h
  obtain ⟨hkey, hv⟩ := List.of_mem_zip he
  exact hkeys e.1 hkey (hvs e.2 hv) hb hstep

theorem keeps_read {v : Value} (hv : v.Fits) (h : read keys c v = some c') : P c' := by
  cases hv with
  | table hes => exact keeps_readEntries hkeys hc hes h
  | array hvs => exact keeps_readItems hkeys hc hvs h
  | tables hrows =>
    refine keeps_readItems hkeys hc (fun v hv => ?_) h
    obtain ⟨row, hrow, rfl⟩ := List.mem_map.1 hv
    exact .table (hrows row hrow)
  | moment =>
    cases h
    exact hc
  | text => cases h
  | integer _ => cases h
  | float => cases h
  | boolean => cases h

end

theorem keeps_ofSection (name : String) {Q : τ → Prop} {keys : List (SectionKey τ)} {get : σ → τ}
    {set : τ → σ → σ} (hkeys : ∀ key ∈ keys, Keeps Q key) (hget : ∀ c, P c → Q (get c))
    (hset : ∀ s c, Q s → P c → P (set s c)) : Keeps P (ofSection name keys get set) := by
  intro v c c' hv hc h
  obtain ⟨s, hs, rfl⟩ := Option.map_eq_some_iff.1 h
  exact hset s c (keeps_read hkeys (hget c hc) hv hs) hc

end SectionKey

namespace Config

open SectionKey

variable {document : String} {c : Config}

theorem keeps_bufferingKeys : ∀ key ∈ bufferingKeys,
    Keeps (fun b => b.spillThreshold ≤ maxInteger ∧ b.pieceSize ≤ maxInteger) key := by
  refine List.forall_mem_cons.2 ⟨?_, List.forall_mem_singleton.2 ?_⟩
  · exact keeps_ofNumber "spill_threshold_bytes" fun n b hn hb => ⟨hn, hb.2⟩
  · exact keeps_ofNumber "io_buffer_size" fun n b hn hb => ⟨hb.1, hn⟩

/-- A section without numbers has nothing to keep. -/
theorem keeps_ofSection_of_numberless {τ : Type} (name : String) (keys : List (SectionKey τ))
    {get : Config → τ} {set : τ → Config → Config}
    (hset : ∀ s c, (set s c).buffering = c.buffering) :
    Keeps (fun c => c.isWritable = true) (ofSection name keys get set) := by
  refine keeps_ofSection name (Q := fun _ => True) (fun key _ v s s' _ _ _ => trivial)
    (fun _ _ => trivial) fun s c _ hc => ?_
  rw [isWritable_iff, hset]
  exact isWritable_iff.1 hc

theorem keeps_sections : ∀ key ∈ sections, Keeps (fun c => c.isWritable = true) key := by
  simp only [sections, List.forall_mem_cons]
  refine ⟨?_, ?_, ?_, ?_, List.forall_mem_nil _⟩
  · exact keeps_ofSection_of_numberless "repo" placeKeys fun _ _ => rfl
  · exact keeps_ofSection "crypto" keeps_bufferingKeys (fun _ hc => isWritable_iff.1 hc)
      fun _ _ hs _ => isWritable_iff.2 hs
  · exact keeps_ofSection_of_numberless "identity" identityKeys fun _ _ => rfl
  · exact keeps_ofSection_of_numberless "log" loggingKeys fun _ _ => rfl

theorem of_ofToml_ok (h : ofToml document = .ok c) :
    c.isWritable = true ∧ c.buffering.pieceSize ≠ 0 := by
  unfold ofToml at h
  split at h
  · cases h
  · next hread =>
    split at h
    · cases h
    · next hpiece =>
      cases h
      obtain ⟨es, hes, hread⟩ := Option.bind_eq_some_iff.1 hread
      refine ⟨?_, hpiece⟩
      exact keeps_readEntries (P := fun c => c.isWritable = true) keeps_sections (by decide)
        (fit_of_parse hes) hread

/-- A configuration that has been read can be written, and what is written is read as that
configuration; writing what was read gives the same document again. -/
theorem roundTrip_of_ofToml (h : ofToml document = .ok c) :
    ∃ written, c.toToml? = some written ∧ ofToml written = .ok c ∧
      ∀ c', ofToml written = .ok c' → c'.toToml? = some written := by
  obtain ⟨hwritable, hpiece⟩ := of_ofToml_ok h
  have hwritten : c.toToml? = some c.toToml := if_pos hwritable
  have hread : ofToml c.toToml = .ok c := ofToml_toToml hwritable hpiece
  refine ⟨c.toToml, hwritten, hread, fun c' hc' => ?_⟩
  rw [hread] at hc'
  cases hc'
  exact hwritten

/-- Texts with a quote, a backslash, a control character and a line break, an empty one, and the
greatest number. -/
def unusual : Config where
  places := ⟨⟨"a\"\\"⟩, ⟨"\x07\nb"⟩⟩
  buffering := ⟨maxInteger, 16⟩
  identities := ⟨some ⟨""⟩, false⟩

theorem roundTrip_of_ofToml_unusual :
    ∃ written, unusual.toToml? = some written ∧ ofToml written = .ok unusual ∧
      ∀ c', ofToml written = .ok c' → c'.toToml? = some written := by
  have hread : ofToml ("repo=[\"a\\\"\\\\\",\"\\u0007\\nb\"]\nidentity.age_identity=\"\"\n[crypto]\n" ++
      "io_buffer_size=0x10\nspill_threshold_bytes=9223372036854775807") = .ok unusual := by
    decide +kernel
  exact roundTrip_of_ofToml hread

end Config

end RepoSeal
