import RepoSeal.Key.Entry
import RepoSeal.Key.Name

/-!
# RepoSeal — key files

A key file holds the versions of one key, newest first, each version once, under the key's name. It
is written as a magic, a format version, a list of header fields and the entries up to the end of the
data. The order of the entries is part of the type, so a key file has exactly one written form. What is
changed in place is a `KeyRing`, which reads the same data.
-/

namespace RepoSeal

structure KeyFile where
  /-- The name of the key; the default key has none. -/
  name : Option KeyName
  /-- The versions, newest first. -/
  entries : List KeyEntry
  descending : entries.Pairwise fun a b => b.version < a.version
deriving DecidableEq

inductive KeyFormat
  | legacy
  | tagged
deriving DecidableEq, Repr

namespace KeyFile

/-- The bytes that every key file begins with. -/
def magic : Bytes := utf8 "\x00GITCRYPTKEY"

/-- The version of the format that is read and written. -/
def formatVersion : UInt32 := 2

/-- The layout of serialized keys, told by how the data begins. -/
def format (data : Bytes) : KeyFormat := if magic.isPrefixOf data then .tagged else .legacy

/-! ## Contents -/

/-- A key file without entries. -/
def empty (name : Option KeyName) : KeyFile := { name, entries := [], descending := .nil }

/-- A key file without entries, under a name that is checked. -/
def named (name : Option String) : Except Error KeyFile :=
  match name with
  | none => .ok (empty none)
  | some text => (fun n => empty (some n)) <$> KeyName.parse text

/-- The same entries under another name, which is checked. -/
def rename (kf : KeyFile) (name : Option String) : Except Error KeyFile :=
  match name with
  | none => .ok { kf with name := none }
  | some text => (fun n => { kf with name := some n }) <$> KeyName.parse text

def shownName (kf : KeyFile) : String := shownKeyName kf.name

def latest? (kf : KeyFile) : Option UInt32 := kf.entries.head?.map KeyEntry.version

def getLatest? (kf : KeyFile) : Option KeyEntry := kf.entries.head?

def get? (kf : KeyFile) (version : UInt32) : Option KeyEntry :=
  kf.entries.find? (·.version = version)

/-- The entry of a version, which must be there. -/
def require (kf : KeyFile) (version : UInt32) : Except Error KeyEntry :=
  match kf.get? version with
  | some entry => .ok entry
  | none => .error (.keyNotFound (.version kf.shownName version))

/-- The entry of the greatest version; there must be one. -/
def requireLatest (kf : KeyFile) : Except Error KeyEntry :=
  match kf.getLatest? with
  | some entry => .ok entry
  | none => .error (.keyNotFound (.noEntries kf.shownName))

/-! ## Adding versions -/

/-- The entries with one more in its place, unless its version is there already. -/
def insertEntry (entry : KeyEntry) : List KeyEntry → Option (List KeyEntry)
  | [] => some [entry]
  | e :: rest =>
    if e.version < entry.version then some (entry :: e :: rest)
    else if e.version = entry.version then none
    else (insertEntry entry rest).map (e :: ·)

theorem mem_insertEntry {entry x : KeyEntry} {es es' : List KeyEntry}
    (h : insertEntry entry es = some es') : x ∈ es' ↔ x = entry ∨ x ∈ es := by
  induction es generalizing es' with
  | nil => cases h; simp
  | cons e rest ih =>
    unfold insertEntry at h
    split at h
    · cases h; simp
    · split at h
      · cases h
      · obtain ⟨r, hr, rfl⟩ := Option.map_eq_some_iff.1 h
        simp only [List.mem_cons, ih hr]
        grind

theorem insertEntry_descending {entry : KeyEntry} {es es' : List KeyEntry}
    (hd : es.Pairwise fun a b => b.version < a.version) (h : insertEntry entry es = some es') :
    es'.Pairwise fun a b => b.version < a.version := by
  induction es generalizing es' with
  | nil => cases h; simp
  | cons e rest ih =>
    obtain ⟨hle, hd'⟩ := List.pairwise_cons.1 hd
    unfold insertEntry at h
    split at h
    · rename_i hlt
      cases h
      refine List.pairwise_cons.2 ⟨fun x hx => ?_, hd⟩
      rcases List.mem_cons.1 hx with rfl | hx
      · exact hlt
      · exact UInt32.lt_trans (hle x hx) hlt
    · rename_i hge
      split at h
      · cases h
      · rename_i hne
        obtain ⟨r, hr, rfl⟩ := Option.map_eq_some_iff.1 h
        refine List.pairwise_cons.2 ⟨fun x hx => ?_, ih hd' hr⟩
        rcases (mem_insertEntry hr).1 hx with rfl | hx
        · exact UInt32.lt_of_le_of_ne (UInt32.not_lt.1 hge) fun h => hne h.symm
        · exact hle x hx

/-- Adds an entry. A version that is there already is never replaced. -/
def add (kf : KeyFile) (entry : KeyEntry) : Except Error KeyFile :=
  match h : insertEntry entry kf.entries with
  | some entries => .ok { kf with entries, descending := insertEntry_descending kf.descending h }
  | none => .error (.malformed (.duplicateVersion entry.version))

/-- The version that comes behind the newest one. -/
def versionAfter (latest : Option UInt32) : Except Error UInt32 :=
  match latest with
  | none => .ok 0
  | some v => if v = 0xffffffff then .error .versionsExhausted else .ok (v + 1)

def nextVersion (kf : KeyFile) : Except Error UInt32 := versionAfter kf.latest?

def generate (kf : KeyFile) (material : Octets 96) : Except Error (UInt32 × KeyFile) := do
  let version ← kf.nextVersion
  let kf' ← kf.add (.ofMaterial version material)
  return (version, kf')

def generatedEvent (kf : KeyFile) (version : UInt32) : LogEvent :=
  ⟨.debug, .keys, "generated key version",
    [("version", .number version.toNat), ("key_name", .text kf.shownName)]⟩

/-! ## Writing -/

/-- The id of the header field that holds the key's name. -/
def nameField : UInt32 := 1

def encodeName : Option KeyName → Bytes
  | none => []
  | some name => Field.encode nameField (utf8 name.text)

def encode (kf : KeyFile) : Bytes :=
  magic ++ be32 formatVersion ++ encodeName kf.name ++ Field.endMark ++
    kf.entries.flatMap KeyEntry.encode

def store (kf : KeyFile) (sink : Sink) : Except Error Unit × Sink :=
  match sink.write kf.encode with
  | (.ok _, sink') => (.ok (), sink')
  | (.error fault, sink') => (.error (.io fault), sink')

/-! ## Reading -/

def headerContext : String := "key file header"

def decodeName (payload : Bytes) : Except Malformation KeyName :=
  match ofUtf8? payload with
  | none => .error .nameNotText
  | some text =>
    match KeyName.ofText text with
    | .ok name => .ok name
    | .error flaw => .error (.nameRefused text flaw.reason)

def headerLayout : Layout (Option KeyName) where
  context := headerContext
  rule id :=
    if id = nameField then
      some { lengthFlaw := fun length =>
               if keyNameMaxLength < length.toNat then some (.nameFieldLength length) else none
             store := fun _ payload => some <$> decodeName payload }
    else none

def readPreamble : Reader Unit := do
  let preamble ← Reader.take headerContext 16
  let version := ofBe32 (preamble.drop 12)
  if preamble.take 12 ≠ magic then Reader.fail (.malformed .notKeyFile)
  else if version ≠ formatVersion then
    Reader.fail (.incompatible (.formatVersion version formatVersion))
  else return ()

/-- Reads entries and adds each to what has been made so far, until no data remains. -/
def readEntriesInto {α : Type} (add : α → KeyEntry → Except Error α) (made : α) (i : Input) :
    Except Error α × Input :=
  match _h : Reader.atEnd.on i with
  | (.error e, i') => (.error e, i')
  | (.ok true, i') => (.ok made, i')
  | (.ok false, i₁) =>
    match _h' : KeyEntry.read i₁ with
    | (.error e, i') => (.error e, i')
    | (.ok entry, i₂) =>
      match add made entry with
      | .error e => (.error e, i₂)
      | .ok made' => readEntriesInto add made' i₂
termination_by i.remaining.length
decreasing_by
  have := Reader.atEnd_ok _h
  have := KeyEntry.read_ok _h'
  simp_all
  omega

/-- Reads a key file. What is made of it begins with its name. -/
def loadInto {α : Type} (start : Option KeyName → α) (add : α → KeyEntry → Except Error α)
    (i : Input) : Except Error α × Input :=
  match readPreamble.on i with
  | (.error e, i') => (.error e, i')
  | (.ok _, i₁) =>
    match headerLayout.readFields none i₁ with
    | (.error e, i') => (.error e, i')
    | (.ok name, i₂) => readEntriesInto add (start name) i₂

def readEntries (kf : KeyFile) (i : Input) : Except Error KeyFile × Input :=
  readEntriesInto add kf i

def load (i : Input) : Except Error KeyFile × Input := loadInto empty add i

/-- Reads a key without framing into a key file with version 0 and no name. -/
def loadLegacy (i : Input) : Except Error KeyFile × Input :=
  match (KeyEntry.readUnframed 0).on i with
  | (.error e, i') => (.error e, i')
  | (.ok entry, i') => ((empty none).add entry, i')

def decode (data : Bytes) : Except Error KeyFile := (load (.ofBytes data)).1

/-! ## Display -/

/-- How a key file is shown, oldest version first: key material is left out. -/
def display (kf : KeyFile) : String :=
  let name := match kf.name with
    | none => "None"
    | some n => "Some(" ++ Text.quoted n.text ++ ")"
  let entries := kf.entries.reverse.map fun e => toString e.version ++ ": " ++ e.display
  "KeyFile \x7b key_name: " ++ name ++ ", entries: \x7b" ++ ", ".intercalate entries ++ "\x7d \x7d"

end KeyFile

end RepoSeal
