import RepoSeal.Bytes

/-!
# RepoSeal — faults of files and streams

A fault is what a read, a write or a request to the file system fails with: its kind, on which
callers decide, and the text that a message shows.
-/

namespace RepoSeal

/-- The kinds of faults that a caller can tell apart. -/
inductive FaultKind
  | notFound
  | permissionDenied
  | alreadyExists
  | notADirectory
  | isADirectory
  | linkLoop
  | busy
  | nameTooLong
  | invalidInput
  | invalidData
  /-- The data ends before all of it is there. -/
  | unexpectedEnd
  | interrupted
  | other
deriving DecidableEq, Repr

/-- A failed read, write or file request. -/
structure Fault where
  kind : FaultKind
  text : String
deriving DecidableEq, Repr

namespace Fault

/-- The path, or a directory on it, does not exist. -/
def notFound : Fault := ⟨.notFound, "No such file or directory (os error 2)"⟩
def permissionDenied : Fault := ⟨.permissionDenied, "Permission denied (os error 13)"⟩
def alreadyExists : Fault := ⟨.alreadyExists, "File exists (os error 17)"⟩
/-- Something on the path is not a directory. -/
def notADirectory : Fault := ⟨.notADirectory, "Not a directory (os error 20)"⟩
def isADirectory : Fault := ⟨.isADirectory, "Is a directory (os error 21)"⟩
def linkLoop : Fault := ⟨.linkLoop, "Too many levels of symbolic links (os error 40)"⟩
def busy : Fault := ⟨.busy, "Device or resource busy (os error 16)"⟩
/-- A part of the path is longer than a file name may be. -/
def nameTooLong : Fault := ⟨.nameTooLong, "File name too long (os error 36)"⟩
/-- A text was read that is not UTF-8. -/
def notText : Fault := ⟨.invalidData, "stream did not contain valid UTF-8"⟩
/-- A read was interrupted before it delivered anything. -/
def interrupted : Fault := ⟨.interrupted, "Interrupted system call (os error 4)"⟩

end Fault

/-- A fault that trying again does not get past. Readers and writers go on after an interruption, so
no stream ends with one. -/
structure LastingFault extends Fault where
  lasting : kind ≠ .interrupted := by decide
deriving DecidableEq, Repr

namespace LastingFault

instance : Coe LastingFault Fault := ⟨toFault⟩

/-- A directory is opened for reading. -/
def isADirectory : LastingFault := { toFault := .isADirectory }

/-- A writer takes no more. -/
def refused : LastingFault := { kind := .other, text := "write refused" }

end LastingFault

end RepoSeal
