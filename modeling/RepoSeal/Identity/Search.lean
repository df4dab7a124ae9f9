import RepoSeal.Config

/-!
# RepoSeal — finding the private identity

The private identity that opens wrapped keys is looked for in four places, one after the other: a file
named by an environment variable, an environment variable that holds the identity itself, the file
named by the configuration, and a file in the home directory. The first place that exists counts, also
when it cannot be read.
-/

namespace RepoSeal

abbrev Environment := String → Option String

/-- The text of a private identity, and where it was found. -/
structure FoundIdentity where
  text : String
  origin : String
deriving DecidableEq

/-- How a found identity is shown: without its text. -/
def FoundIdentity.display (i : FoundIdentity) : String :=
  "IdentityProvider \x7b source: " ++ Text.quoted i.origin ++ ", .. \x7d"

/-- The places where an identity may be, in the order in which they are tried. -/
structure IdentitySearch where
  namedFile : Option Path := none
  literal : Option String := none
  configured : Option Path := none
  standard : Option Path := none
deriving DecidableEq

namespace IdentitySearch

def fileVariable : String := "GITCRYPT_AGE_IDENTITY_FILE"

def literalVariable : String := "GITCRYPT_AGE_IDENTITY"

def belowHome : String := ".config/git-crypt/identity.txt"

/-- The places for a process. An empty literal counts as none. -/
def ofEnvironment (env : Environment) (identities : Identities) : IdentitySearch where
  namedFile := (env fileVariable).map Path.mk
  literal := (env literalVariable).filter (!·.isEmpty)
  configured := identities.file.map (Path.expandHome (env "HOME"))
  standard := (env "HOME").map fun home => Path.mk home / belowHome

def readFile (label : String) (p : Path) : Attempt Error FoundIdentity := do
  match ← Attempt.ask (Plan.readText p) with
  | .ok text => return ⟨text, s!"{label}:{p}"⟩
  | .error fault => Attempt.fail (.config (.unreadableIdentity p fault))

/-- The event that tells of a named file that does not exist. -/
def missingEvent (p : Path) : LogEvent :=
  ⟨.warn, .identity, s!"{fileVariable} points at a missing file", [("path", .text p.text)]⟩

/-- The file at one of the places, if it exists, and what comes after it otherwise. -/
def tryFile (label : String) (place : Option Path) (missing : Path → Plan Unit)
    (next : Attempt Error FoundIdentity) : Attempt Error FoundIdentity :=
  match place with
  | none => next
  | some p => do
    if ← Attempt.ask (Plan.exists_ p) then readFile label p
    else
      Attempt.ask (missing p)
      next

/-- The error if no place has an identity. -/
def nowhere (s : IdentitySearch) : Error :=
  .keyNotFound (.noIdentity ((s.standard.map Path.text).getD ("~/" ++ belowHome)))

/-- Looks for an identity in one place after the other. -/
def find (s : IdentitySearch) : Attempt Error FoundIdentity :=
  tryFile fileVariable s.namedFile (fun p => Plan.log [missingEvent p]) <|
    match s.literal with
    | some text => return ⟨text, s!"{literalVariable} (env)"⟩
    | none =>
      tryFile "config" s.configured (fun _ => pure ()) <|
        tryFile "default" s.standard (fun _ => pure ()) <|
          Attempt.fail s.nowhere

end IdentitySearch

def findIdentity (env : Environment) (identities : Identities) : Attempt Error FoundIdentity := do
  let found ← (IdentitySearch.ofEnvironment env identities).find
  Attempt.ask (Plan.log
    [⟨.debug, .identity, "found age identity", [("source", .text found.origin)]⟩])
  return found

end RepoSeal
