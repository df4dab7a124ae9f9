import RepoSeal.Plan
import RepoSeal.Text.Column
import RepoSeal.Text.Lines

/-!
# RepoSeal — failures of commands

A command fails with an error of the library, with a fault of a file or because what it was told to
do makes no sense where it runs; what it was doing is told first. A report gives the message of a
failure, and below it those of its causes.
-/

namespace RepoSeal

inductive Activity
  | loadingConfig (p : Path)
  | loadingKeyFile (p : Path)
  | sealingInput
  | openingInput
  | openingFile (p : Path)
  | decryptingFile (p : Path)
  | readingFile (p : Path)
  | readingLegacyKey (p : Path)
deriving DecidableEq

inductive Failure
  | library (e : Error)
  | fault (f : Fault)
  | fileExists (p : Path)
  /-- There is no key file at a path. -/
  | noKeyFile (p : Path)
  | alreadyCurrent (p : Path)
  /-- A directory has no key that is wrapped for an identity. -/
  | nothingWrapped (dir : Path) (origin : String)
  | during (activity : Activity) (cause : Failure)
deriving DecidableEq

def Activity.text : Activity → String
  | loadingConfig p => s!"loading config: {p}"
  | loadingKeyFile p => s!"loading key file: {p}"
  | sealingInput => "encrypting stdin"
  | openingInput => "decrypting stdin"
  | openingFile p => s!"opening {p}"
  | decryptingFile p => s!"decrypting {p}"
  | readingFile p => s!"reading {p}"
  | readingLegacyKey p => s!"parsing legacy key: {p}"

namespace Failure

def message : Failure → String
  | library e => e.message
  | fault f => f.text
  | fileExists p => s!"{p}: file already exists"
  | noKeyFile p => s!"no key file at {p}; is the repository unlocked? Try: git-crypt unlock"
  | alreadyCurrent p => s!"{p} is already in the current key file format"
  | nothingWrapped dir origin => s!"no key in {dir} is wrapped for {origin}"
  | during activity _ => activity.text

/-- The messages of the causes of a failure, nearest first. -/
def causes : Failure → List String
  | library e => e.causes
  | during _ cause => cause.message :: cause.causes
  | _ => []

/-! ## Reports -/

/-- A cause in a report. The lines of its message stand below one another; a number is put in front of
the first if there are several causes. -/
def causeText (number : Option Nat) (message : String) : String :=
  let (front, indent) := match number with
    | none => ("    ", "    ")
    | some n => (Text.rightIn 5 n ++ ": ", "       ")
  front ++ ("\n" ++ indent).intercalate ((Text.splitFeeds message.toList).map String.ofList)

def report (f : Failure) : String :=
  let causes := match f.causes with
    | [] => []
    | [cause] => ["", "Caused by:", causeText none cause]
    | several => "" :: "Caused by:" :: several.mapIdx fun i cause => causeText (some i) cause
  "\n".intercalate (("Error: " ++ f.message) :: causes)

end Failure

namespace Attempt

variable {α : Type}

def inLibrary (a : Attempt Error α) : Attempt Failure α := ExceptT.adapt Failure.library a

def during (activity : Activity) (a : Attempt Failure α) : Attempt Failure α :=
  ExceptT.adapt (Failure.during activity) a

/-- Asks for a file, and ends with the fault if there is one. -/
def orBareFault (p : Plan (Except Fault α)) : Attempt Failure α := ExceptT.mk do
  match ← p with
  | .ok a => return .ok a
  | .error fault => return .error (.fault fault)

end Attempt

end RepoSeal
