import RepoSeal.Path

/-!
# RepoSeal — commands

What a user can tell the program to do. Three commands are filters for the data of one file; the
others manage keys.
-/

namespace RepoSeal

/-- The key that a command works with: the key file at a path, or else the installed key with a name,
or else the installed default key. -/
structure KeyChoice where
  name : Option String := none
  file : Option Path := none
deriving DecidableEq

inductive Command
  | clean (key : KeyChoice)
  | smudge (key : KeyChoice)
  | diff (file : Path) (key : KeyChoice)
  | keygen (path : Path) (name : Option String)
  | exportKey (path : Path) (key : KeyChoice)
  /-- Make a key file of a key without framing. -/
  | migrateKey (old new : Path)
  /-- Install keys: those in some files or, without any, those that are wrapped for the user. -/
  | unlock (files : List Path)
  | addCollaborator (recipients : List String) (trusted : Bool) (name : Option String)
  | lsCollaborators
deriving DecidableEq

inductive Ending
  | done
  /-- What it opened is not what was sealed. -/
  | tampered
deriving DecidableEq, Repr

end RepoSeal
