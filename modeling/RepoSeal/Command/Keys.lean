import RepoSeal.Age.File
import RepoSeal.Command.Basic
import RepoSeal.Command.Failure
import RepoSeal.Config
import RepoSeal.Identity.Search
import RepoSeal.Key.Disk

/-!
# RepoSeal — key commands

Key files are made, installed, copied and converted. An installed key is a file in the private
directory, named for the key; the default key has the file `default`.
-/

namespace RepoSeal

structure Workplace where
  env : Environment
  config : Config
  /-- How keys are encrypted for collaborators. -/
  scheme : Age.Scheme := .standard

namespace Workplace

def home (w : Workplace) : Option String := w.env "HOME"

/-- Where the key with a name is installed. The name is checked. -/
def installedPath (w : Workplace) (name : Option String) : Except Error Path := do
  match name with
  | some n => let _ ← KeyName.parse n
  | none => pure ()
  return w.config.keyFilesDir w.home / name.getD defaultKeyName

def keyPath (w : Workplace) (key : KeyChoice) : Except Error Path :=
  match key.file with
  | some p => .ok (p.expandHome w.home)
  | none => w.installedPath key.name

def loadKey (w : Workplace) (key : KeyChoice) : Attempt Failure KeyFile := do
  let p ← Attempt.ofExcept ((w.keyPath key).mapError .library)
  if ← Attempt.ask (Plan.exists_ p) then
    ((KeyFile.loadFrom p).inLibrary).during (.loadingKeyFile p)
  else Attempt.fail (.noKeyFile p)

def install (w : Workplace) (kf : KeyFile) : Attempt Failure Unit := Attempt.inLibrary do
  kf.storeAt (← Attempt.ofExcept (w.installedPath (kf.name.map KeyName.text)))

end Workplace

namespace Command

/-- Makes a key file with one version at a path where there is nothing. -/
def generateKey (p : Path) (name : Option String) : Attempt Failure Ending := do
  if ← Attempt.ask (Plan.exists_ p) then Attempt.fail (.fileExists p)
  else
    Attempt.inLibrary do
      let (_, kf) ← (← Attempt.ofExcept (KeyFile.named name)).generateFresh
      kf.storeAt p
    Attempt.ask (Plan.writeLine s!"Generated key file {p}")
    return .done

/-- Whether a path stands for the standard output: a hyphen, with nothing but slashes and dots behind
it. -/
def namesOutput (p : Path) : Bool := p.parts = ["-"] && p.text.toList.head? = some '-'

/-- Copies the chosen key to a path, or to the standard output. -/
def copyKey (w : Workplace) (p : Path) (key : KeyChoice) : Attempt Failure Ending := do
  let kf ← w.loadKey key
  if namesOutput p then Attempt.ask (Plan.write kf.encode)
  else (kf.storeAt p).inLibrary
  return .done

/-- Makes a key file of a key without framing. -/
def convertKey (old new : Path) : Attempt Failure Ending := do
  let data ← (Attempt.orBareFault (Plan.contents old)).during (.readingFile old)
  match KeyFile.format data with
  | .tagged => Attempt.fail (.alreadyCurrent old)
  | .legacy =>
    let loaded := (KeyFile.loadLegacy (.ofBytes data)).1
    let kf ← (Attempt.ofExcept (loaded.mapError .library)).during (.readingLegacyKey old)
    (kf.storeAt new).inLibrary
    Attempt.ask (Plan.writeLine s!"Migrated {old} -> {new}")
    return .done

end Command

end RepoSeal
