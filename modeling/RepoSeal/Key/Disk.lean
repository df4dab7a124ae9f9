import RepoSeal.Key.File
import RepoSeal.Plan

/-!
# RepoSeal — key files on disk

A key file is put in its place complete and readable for its owner alone, so a failure leaves either
the old file or none. Only data that begins like a key file is loaded from disk: a key without
framing could be anything, and has to be converted first.
-/

namespace RepoSeal.KeyFile

/-- What a loaded key file passed over goes to the log, whether or not loading succeeded. -/
def loadLogged (data : Bytes) : Plan (Except Error KeyFile) := do
  let (result, i) := load (.ofBytes data)
  Plan.log i.log
  return result

def loadFrom (p : Path) : Attempt Error KeyFile := do
  let data ← Attempt.orFault (Plan.contents p)
  match format data with
  | .legacy => Attempt.fail (.malformed (.unframedKey p))
  | .tagged => ExceptT.mk (loadLogged data)

/-- The event that tells of a key file in its place. -/
def writtenEvent (kf : KeyFile) (p : Path) : LogEvent :=
  ⟨.info, .keys, "key file written",
    [("path", .text p.text), ("key_name", .text kf.shownName),
      ("versions", .number kf.entries.length)]⟩

/-- Puts a key file at a path, making the directories on the way. -/
def storeAt (kf : KeyFile) (p : Path) : Attempt Error Unit := do
  Attempt.orFault (Plan.makeDirectories (Tree.holderOf p))
  Attempt.orFault (Plan.replaceFile p kf.encode)
  Attempt.ask (Plan.log [kf.writtenEvent p])

def generateFresh (kf : KeyFile) : Attempt Error (UInt32 × KeyFile) := do
  let _ ← Attempt.ofExcept kf.nextVersion
  match ← Attempt.ask (Plan.random 96) with
  | .error text => Attempt.fail (.external "random" text)
  | .ok material =>
    let (version, kf') ← Attempt.ofExcept (kf.generate material)
    Attempt.ask (Plan.log [kf'.generatedEvent version])
    return (version, kf')

end RepoSeal.KeyFile
