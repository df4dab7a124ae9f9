import RepoSeal.Digest.Hmac
import RepoSeal.Key.Field

/-!
# RepoSeal — key entries

One version of a key: a cipher key and a digest key under a version number. An entry is written as
three fields and an end mark. Reading takes the fields in any order, the last one of each kind
counting, and passes over fields with even ids that it does not know.

An older layout, without framing, is the two keys one after the other and nothing else.
-/

namespace RepoSeal

structure KeyEntry where
  version : UInt32
  cipherKey : Aes.Key
  digestKey : Hmac.Key
deriving DecidableEq

namespace KeyEntry

/-- The number of bytes of key material in an entry. -/
def materialLength : Nat := 96

/-- The entry whose key material is given: the cipher key first, then the digest key. -/
def ofMaterial (version : UInt32) (material : Octets 96) : KeyEntry :=
  { version
    cipherKey := ⟨material.toList.take 32, by simp [material.length_toList]⟩
    digestKey := ⟨material.toList.drop 32, by simp [material.length_toList]⟩ }

/-- How an entry is shown: key material is left out. -/
def display (e : KeyEntry) : String :=
  "KeyEntry \x7b version: " ++ toString e.version ++
    ", aes_key: \"[REDACTED]\", hmac_key: \"[REDACTED]\" \x7d"

/-! ## Writing -/

def versionField : UInt32 := 1
/-- The id of the field that holds the cipher key. -/
def cipherKeyField : UInt32 := 3
/-- The id of the field that holds the digest key. -/
def digestKeyField : UInt32 := 5

def encode (e : KeyEntry) : Bytes :=
  Field.encode versionField (be32 e.version) ++
    Field.encode cipherKeyField e.cipherKey.toList ++
    Field.encode digestKeyField e.digestKey.toList ++ Field.endMark

/-! ## Reading -/

/-- The fields of an entry that have been read so far. -/
structure Draft where
  version : Option UInt32 := none
  cipherKey : Option Aes.Key := none
  digestKey : Option Hmac.Key := none
deriving DecidableEq

def context : String := "key entry"

/-- The rule of a field that must have a given size. -/
def sized (size : Nat) (store : Draft → Octets size → Draft) : FieldRule Draft where
  lengthFlaw length := if length.toNat = size then none else some (.fixedLength context size length)
  store d payload := .ok (store d (Octets.ofPrefix size payload))

def layout : Layout Draft where
  context := context
  rule id :=
    if id = versionField then
      some { lengthFlaw := fun length =>
               if length = 4 then none else some (.wordLength context length)
             store := fun d payload => .ok { d with version := some (ofBe32 payload) } }
    else if id = cipherKeyField then some (sized 32 fun d k => { d with cipherKey := some k })
    else if id = digestKeyField then some (sized 64 fun d k => { d with digestKey := some k })
    else none

/-- The entry of a draft in which nothing is missing. -/
def Draft.entry? (d : Draft) : Option KeyEntry :=
  match d.version, d.cipherKey, d.digestKey with
  | some version, some cipherKey, some digestKey => some { version, cipherKey, digestKey }
  | _, _, _ => none

/-- Reads one entry, up to and including its end mark. -/
def read (i : Input) : Except Error KeyEntry × Input :=
  match layout.readFields {} i with
  | (.error e, i') => (.error e, i')
  | (.ok draft, i') =>
    match draft.entry? with
    | some entry => (.ok entry, i')
    | none => (.error (.malformed .missingField), i')

/-- An entry takes at least its end mark. -/
theorem read_ok {i i' : Input} {e : KeyEntry} (h : read i = (.ok e, i')) :
    i'.remaining.length + 4 ≤ i.remaining.length := by
  unfold read at h
  split at h
  · cases h
  · rename_i hr
    split at h <;> cases h
    exact Layout.readFields_ok hr

/-- Reads a key without framing: two keys, and nothing after them. -/
def readUnframed (version : UInt32) : Reader KeyEntry := do
  let cipherKey ← Reader.take "legacy key" 32
  let digestKey ← Reader.take "legacy key" 64
  if ← Reader.atEnd then
    return { version, cipherKey := .ofPrefix 32 cipherKey, digestKey := .ofPrefix 64 digestKey }
  else
    Reader.fail (.malformed (.trailingData materialLength))

end KeyEntry

end RepoSeal
