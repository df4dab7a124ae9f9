import RepoSeal.Key.Disk
import RepoSeal.Sharing.Wrapper

/-!
# RepoSeal — the store of wrapped keys

Wrapped keys lie in a shared directory, one file for every key, version and recipient:
`keys/<key name>/<version>/<fingerprint>.<suffix>`, where the default key has the name `default`. Such
a file is only ever added, so the first copy that a recipient gets of a version stays. Copies can be
put where they do not belong, so a copy counts only if what it holds has the name and the version of
its place.
-/

namespace RepoSeal

/-- A directory of wrapped keys, with the way in which they are wrapped. -/
structure Store where
  base : Path
  wrapper : Wrapper

structure WrappedKey where
  name : Option KeyName
  version : UInt32
  fingerprint : String
  path : Path
deriving DecidableEq

namespace Store

/-! ## Places -/

/-- The directory that has one directory for every key. -/
def root (s : Store) : Path := s.base / "keys"

def keyDir (s : Store) (name : Option String) : Path := s.root / name.getD defaultKeyName

def blobPath (s : Store) (name : Option String) (version : UInt32) (fingerprint : String) : Path :=
  s.keyDir name / toString version / (fingerprint ++ "." ++ s.wrapper.suffix)

/-! ## Adding recipients -/

/-- Puts a wrapped key in its place, making the directories on the way. -/
def putBlob (p : Path) (blob : Bytes) : Attempt Error Unit := do
  Attempt.orFault (Plan.makeDirectories (Tree.holderOf p))
  Attempt.orFault (Plan.replaceFile p blob)

def wrapFor (s : Store) (plaintext : Bytes) (fingerprint : String) (trusted : Bool) :
    Attempt Error Bytes := do
  Attempt.ask (Plan.log (s.wrapper.wrapEvents fingerprint trusted))
  match ← Attempt.ask (Plan.random s.wrapper.seedLength) with
  | .error text => Attempt.fail (.external "random" text)
  | .ok seed => Attempt.ofExcept (s.wrapper.wrap seed plaintext fingerprint trusted)

/-- The event that tells of a recipient who has a version already. -/
def presentEvent (p : Path) : LogEvent :=
  ⟨.debug, .store, "collaborator already has this key version", [("path", .text p.text)]⟩

def addedEvent (name : Option KeyName) (version : UInt32) (fingerprint : String) : LogEvent :=
  ⟨.info, .store, "added collaborator",
    [("fingerprint", .text fingerprint), ("key_name", .text (shownKeyName name)),
      ("version", .number version.toNat)]⟩

/-- Wraps a key file of one version for every fingerprint that has no copy yet; the result is the
places of the new copies. The first failure ends it. -/
def addEach (s : Store) (kf : KeyFile) (version : UInt32) (trusted : Bool) :
    List String → Attempt Error (List Path)
  | [] => return []
  | fingerprint :: rest => do
    let p := s.blobPath (kf.name.map KeyName.text) version fingerprint
    if ← Attempt.ask (Plan.exists_ p) then
      Attempt.ask (Plan.log [presentEvent p])
      addEach s kf version trusted rest
    else
      putBlob p (← s.wrapFor kf.encode fingerprint trusted)
      Attempt.ask (Plan.log [addedEvent kf.name version fingerprint])
      return p :: (← addEach s kf version trusted rest)

/-- Wraps the newest version of a key for recipients. All of them are checked before anything is
written. -/
def addCollaborators (s : Store) (kf : KeyFile) (recipients : List String) (trusted : Bool) :
    Attempt Error (List Path) := do
  let fingerprints ← Attempt.ofExcept (recipients.mapM s.wrapper.fingerprint)
  let entry ← Attempt.ofExcept kf.requireLatest
  let single ← Attempt.ofExcept ((KeyFile.empty kf.name).add entry)
  s.addEach single entry.version trusted fingerprints

/-! ## Unwrapping -/

/-- What is wrong with a key file as the one filed under a name and a version. -/
def misfiled (p : Path) (name : Option String) (version : UInt32) (kf : KeyFile) :
    Option Malformation :=
  if (kf.get? version).isNone then some (.versionAbsent p version)
  else if kf.name.map KeyName.text ≠ name then some (.nameMismatch p (kf.name.map KeyName.text))
  else none

def unwrapBlob (s : Store) (p : Path) (fingerprint : String) (name : Option String)
    (version : UInt32) : Attempt Error KeyFile := do
  let blob ← Attempt.orFault (Plan.contents p)
  let plaintext ← Attempt.ofExcept (s.wrapper.unwrap blob fingerprint)
  let kf ← ExceptT.mk (KeyFile.loadLogged plaintext)
  match misfiled p name version kf with
  | some cause => Attempt.fail (.malformed cause)
  | none => return kf

def unwrappedEvent (p : Path) (name : Option String) (version : UInt32) : LogEvent :=
  ⟨.info, .store, "unwrapped key",
    [("path", .text p.text), ("key_name", .text (name.getD defaultKeyName)),
      ("version", .number version.toNat)]⟩

/-- The event that tells of a copy that could not be unwrapped. -/
def refusedEvent (p : Path) (e : Error) : LogEvent :=
  ⟨.warn, .store, "could not unwrap key",
    [("path", .text p.text), ("error", .text e.message)]⟩

/-- Unwraps a key with the first of some private identities that can. If none can, it fails with the
last error, which to begin with is `failure`. -/
def unwrapWith (s : Store) (name : Option String) (version : UInt32) (failure : Error) :
    List String → Attempt Error KeyFile
  | [] => Attempt.fail failure
  | fingerprint :: rest => do
    let p := s.blobPath name version fingerprint
    if ← Attempt.ask (Plan.exists_ p) then
      match ← Attempt.ask (s.unwrapBlob p fingerprint name version).run with
      | .ok kf =>
        Attempt.ask (Plan.log [unwrappedEvent p name version])
        return kf
      | .error e =>
        Attempt.ask (Plan.log [refusedEvent p e])
        unwrapWith s name version e rest
    else unwrapWith s name version failure rest

/-- Unwraps a version of a key with whichever private identity has a copy of it. -/
def unwrapKey (s : Store) (name : Option String) (version : UInt32) : Attempt Error KeyFile := do
  let fingerprints ← Attempt.ofExcept s.wrapper.secretFingerprints
  s.unwrapWith name version (.keyNotFound (.noCopy (name.getD defaultKeyName) version)) fingerprints

/-! ## Listing -/

/-- The key whose directory has a name, if there can be one. -/
def keyOfDirectory (dir : String) : Option (Option KeyName) :=
  if dir = defaultKeyName then some none
  else match KeyName.ofText dir with
    | .ok name => some (some name)
    | .error _ => none

/-- The order of keys: the default key first, the others by name. -/
def keyBefore (a b : Option KeyName) : Bool :=
  match a, b with
  | none, _ => true
  | some _, none => false
  | some a, some b => decide (a.text ≤ b.text)

/-- The event that tells of a directory that no key can have. -/
def ignoredEvent (dir : String) : LogEvent :=
  ⟨.debug, .store, "ignoring directory with invalid key name", [("dir", .text dir)]⟩

/-- The names of the directories among the entries of a directory. -/
def directoriesIn (entries : List (String × EntryKind)) : List String :=
  entries.filterMap fun (name, kind) => if kind = .directory then some name else none

/-- The keys that have a directory, in their order. -/
def keyNames (s : Store) : Attempt Error (List (Option KeyName)) := do
  if (← Attempt.ask (Plan.presence s.root)) ≠ .directory then return []
  let dirs := directoriesIn (← Attempt.orFault (Plan.listDirectory s.root))
  Attempt.ask (Plan.log
    (dirs.filterMap fun d => if (keyOfDirectory d).isNone then some (ignoredEvent d) else none))
  return (dirs.filterMap keyOfDirectory).mergeSort keyBefore

/-- The version that a text writes: digits, with or without a plus in front. -/
def version? (text : String) : Option UInt32 :=
  let digits := match text.toList with
    | '+' :: rest => rest
    | cs => cs
  if digits ≠ [] && digits.all Char.isDigit then
    let n := digits.foldl (fun n c => n * 10 + (c.toNat - 48)) 0
    if n < UInt32.size then some (.ofNat n) else none
  else none

/-- The versions with a directory of their own, ascending. Of several directories for one version the
last one counts. -/
def versionsIn (dirs : List String) : List (UInt32 × String) :=
  let found := dirs.filterMap fun d => (version? d).map fun v => (v, d)
  let last := found.foldl (fun vs e => vs.filter (·.1 ≠ e.1) ++ [e]) []
  last.mergeSort fun a b => decide (a.1 ≤ b.1)

def fingerprintOf (s : Store) (fileName : String) : Option String :=
  let suffix := ("." ++ s.wrapper.suffix).toList
  let cs := fileName.toList
  if suffix.isSuffixOf cs then
    match cs.take (cs.length - suffix.length) with
    | [] => none
    | '.' :: _ => none
    | fingerprint => some (String.ofList fingerprint)
  else none

def listVersion (s : Store) (name : Option KeyName) (version : UInt32) (dir : Path) :
    Attempt Error (List WrappedKey) := do
  let entries ← Attempt.orFault (Plan.listDirectory dir)
  let found := entries.filterMap fun (file, _) =>
    (s.fingerprintOf file).map fun f => WrappedKey.mk name version f (dir / file)
  return found.mergeSort fun a b => decide (a.fingerprint ≤ b.fingerprint)

def listKey (s : Store) (name : Option KeyName) : Attempt Error (List WrappedKey) := do
  let dir := s.keyDir (name.map KeyName.text)
  let versions := versionsIn (directoriesIn (← Attempt.orFault (Plan.listDirectory dir)))
  return (← versions.mapM fun (version, d) => s.listVersion name version (dir / d)).flatten

/-- All wrapped keys, by key, version and fingerprint. -/
def list (s : Store) : Attempt Error (List WrappedKey) := do
  return (← (← s.keyNames).mapM s.listKey).flatten

/-! ## Unwrapping all -/

/-- The event that tells of a key without a copy that can be used. -/
def skippedEvent (cause : MissingKey) : LogEvent :=
  ⟨.debug, .store, "skipping key", [("reason", .text cause.text)]⟩

/-- Unwraps a version of each key, leaving out keys that are not found. -/
def unwrapEach (s : Store) (version : UInt32) : List (Option KeyName) → Attempt Error (List KeyFile)
  | [] => return []
  | name :: rest => do
    match ← Attempt.ask (s.unwrapKey (name.map KeyName.text) version).run with
    | .ok kf => return kf :: (← unwrapEach s version rest)
    | .error (.keyNotFound cause) =>
      Attempt.ask (Plan.log [skippedEvent cause])
      unwrapEach s version rest
    | .error e => Attempt.fail e

/-- Unwraps a version of every key that has a directory. -/
def unwrapAll (s : Store) (version : UInt32) : Attempt Error (List KeyFile) := do
  s.unwrapEach version (← s.keyNames)

end Store

end RepoSeal
