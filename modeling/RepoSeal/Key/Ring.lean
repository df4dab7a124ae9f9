import RepoSeal.Key.File
import RepoSeal.Key.VersionMap

/-!
# RepoSeal — key rings

While it is worked on, a key file is a ring: a name and slots that are found by version numbers.
Nothing in the type says that the name is legal, or that a slot holds an entry of its own version; the
operations have to see to that. They change the ring in place, and one that fails leaves the ring as it
is then.
-/

namespace RepoSeal

structure KeyRing where
  /-- The name of the key; the default key has none. -/
  name : Option String := none
  slots : VersionMap KeyEntry := .empty

namespace KeyRing

/-! ## Contents -/

def isEmpty (r : KeyRing) : Bool := r.slots.rows.isEmpty

def get? (r : KeyRing) (version : UInt32) : Option KeyEntry := r.slots.get? version

/-- The version number of the last slot. -/
def latest? (r : KeyRing) : Option UInt32 := r.slots.keys.getLast?

/-- The entry in the last slot. -/
def getLatest? (r : KeyRing) : Option KeyEntry := r.slots.values.getLast?

/-- The entries, from the last slot to the first. -/
def entries (r : KeyRing) : List KeyEntry := r.slots.values.reverse

/-! ## Work on a ring -/

/-- Work on a ring, which comes to an `α` or fails. What it has done to the ring by then is done. -/
abbrev Op (α : Type) := ExceptT Error (StateM KeyRing) α

namespace Op

/-- What work comes to, and the ring after it. -/
def on {α : Type} (op : Op α) (r : KeyRing) : Except Error α × KeyRing := op.run.run r

def ofExcept {α : Type} (x : Except Error α) : Op α := ExceptT.mk (pure x)

/-- What work makes of a ring that is given up if the work fails. -/
def make (op : Op Unit) (r : KeyRing) : Except Error KeyRing :=
  match op.on r with
  | (.ok _, r') => .ok r'
  | (.error e, _) => .error e

end Op

/-- Refuses a text that is no key name. -/
def checkName (text : String) : Except Error Unit :=
  match keyNameFlaw text with
  | none => .ok ()
  | some flaw => .error (.invalidKeyName text flaw)

def setName (name : Option String) : Op Unit := do
  match name with
  | none => pure ()
  | some text => Op.ofExcept (checkName text)
  modify fun r => { r with name }

/-- Puts an entry into the slot of its version, which must be free. -/
def add (entry : KeyEntry) : Op Unit := do
  let r ← get
  if r.slots.contains entry.version then
    throw (.malformed (.duplicateVersion entry.version))
  modify fun r => { r with slots := r.slots.insert entry.version entry }

/-- Adds the next version, with the key material that is drawn for it. -/
def generate (draw : Except Error (Octets 96)) : Op UInt32 := do
  let r ← get
  let version ← Op.ofExcept (KeyFile.versionAfter r.latest?)
  let material ← Op.ofExcept draw
  add (.ofMaterial version material)
  return version

/-- Puts another ring in the place of this one, if there is one. -/
def replace (made : Except Error KeyRing) : Op Unit := do
  set (← Op.ofExcept made)

/-! ## New rings -/

def withName (name : Option String) : Except Error KeyRing := (setName name).make {}

/-- Reads a key file into a new ring, entry by entry. -/
def load (i : Input) : Except Error KeyRing × Input :=
  KeyFile.loadInto (fun name => { name := name.map KeyName.text })
    (fun r entry => (add entry).make r) i

def loadLegacy (i : Input) : Except Error KeyRing × Input :=
  match (KeyEntry.readUnframed 0).on i with
  | (.error e, i') => (.error e, i')
  | (.ok entry, i') => ((add entry).make {}, i')

end KeyRing

end RepoSeal
