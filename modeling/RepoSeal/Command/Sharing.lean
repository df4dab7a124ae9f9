import RepoSeal.Age.Wrapper
import RepoSeal.Command.Keys
import RepoSeal.Sharing.Store
import RepoSeal.Text.Column

/-!
# RepoSeal — sharing commands

Installed keys are wrapped for collaborators, and wrapped keys are unwrapped and installed. Keys from
files are all loaded before the first one is installed.
-/

namespace RepoSeal

namespace Workplace

/-- The store of wrapped keys, with the private identities that open them. -/
def store (w : Workplace) (identities : List X25519.PrivateKey) : Store where
  base := w.config.places.keysDir.expandHome w.home
  wrapper := Age.wrapperWith w.scheme identities

/-- The keys that are wrapped for the identity of the user. There must be one. -/
def unwrapKeys (w : Workplace) : Attempt Failure (List KeyFile) := do
  let found ← (findIdentity w.env w.config.identities).inLibrary
  let identities ← Attempt.ofExcept ((Age.readIdentities found).mapError .library)
  Attempt.ask (Plan.log [Age.loadedEvent found identities])
  match ← ((w.store identities).unwrapAll Envelope.keyVersion).inLibrary with
  | [] => Attempt.fail (.nothingWrapped w.config.places.keysDir found.origin)
  | keys => return keys

def loadKeys (w : Workplace) : List Path → Attempt Failure (List KeyFile)
  | [] => return []
  | p :: rest => do
    let kf ← (KeyFile.loadFrom (p.expandHome w.home)).inLibrary.during (.loadingKeyFile p)
    return kf :: (← loadKeys w rest)

/-- Installs keys, one after the other. -/
def installAll (w : Workplace) : List KeyFile → Attempt Failure Unit
  | [] => return ()
  | kf :: rest => do
    w.install kf
    Attempt.ask (Plan.writeLine s!"Unlocked key {kf.shownName}")
    installAll w rest

end Workplace

namespace Command

/-- Installs the keys in some files or, if there are none, those that are wrapped for the user. -/
def installKeys (w : Workplace) (files : List Path) : Attempt Failure Ending := do
  w.installAll (← if files.isEmpty then w.unwrapKeys else w.loadKeys files)
  return .done

def share (w : Workplace) (recipients : List String) (trusted : Bool) (name : Option String) :
    Attempt Failure Ending := do
  let kf ← w.loadKey { name }
  let trusted := trusted || w.config.identities.trustRecipients
  let added ← ((w.store []).addCollaborators kf recipients trusted).inLibrary
  if added.isEmpty then
    Attempt.ask (Plan.writeLine "All recipients already have this key")
  Attempt.ask (added.forM fun p => Plan.writeLine s!"Added {p}")
  return .done

/-- The line of a wrapped key: the name of the key, the version in a column, and the fingerprint. -/
def lineOf (k : WrappedKey) : String :=
  Text.leftIn 20 (shownKeyName k.name) ++ " " ++ Text.rightIn 4 k.version.toNat ++ "  " ++ k.fingerprint

def listShared (w : Workplace) : Attempt Failure Ending := do
  let keys ← ((w.store []).list).inLibrary
  if keys.isEmpty then Attempt.ask (Plan.writeLine "No collaborators")
  Attempt.ask (keys.forM fun k => Plan.writeLine (lineOf k))
  return .done

end Command

end RepoSeal
