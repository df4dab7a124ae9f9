import RepoSeal.Command.Session

/-!
# RepoSeal — the program

The command line on real files: every request of a plan is answered by the system. Log lines and
reports go to the standard error, data to the standard output.
-/

namespace RepoSeal.Program

def numberedFaults : List (UInt32 × Fault) :=
  [(2, .notFound), (4, .interrupted), (13, .permissionDenied), (16, .busy), (17, .alreadyExists),
    (20, .notADirectory), (21, .isADirectory), (36, .nameTooLong), (40, .linkLoop)]

def numberOf : IO.Error → Option (UInt32 × String)
  | .alreadyExists _ n text => some (n, text)
  | .otherError n text => some (n, text)
  | .resourceBusy n text => some (n, text)
  | .resourceVanished n text => some (n, text)
  | .unsupportedOperation n text => some (n, text)
  | .hardwareFault n text => some (n, text)
  | .unsatisfiedConstraints n text => some (n, text)
  | .illegalOperation n text => some (n, text)
  | .protocolError n text => some (n, text)
  | .timeExpired n text => some (n, text)
  | .interrupted _ n text => some (n, text)
  | .noFileOrDirectory _ n text => some (n, text)
  | .invalidArgument _ n text => some (n, text)
  | .permissionDenied _ n text => some (n, text)
  | .resourceExhausted _ n text => some (n, text)
  | .inappropriateType _ n text => some (n, text)
  | .noSuchThing _ n text => some (n, text)
  | .unexpectedEof => none
  | .userError _ => none

/-- The fault that a system error stands for. Some requests give its number negated. -/
def faultOf (e : IO.Error) : Fault :=
  match e, numberOf e with
  | .unexpectedEof, _ => ⟨.unexpectedEnd, toString e⟩
  | _, none => ⟨.other, toString e⟩
  | _, some (given, text) =>
    let n := if 0x80000000 ≤ given then 0 - given else given
    match numberedFaults.lookup n with
    | some fault => fault
    | none => ⟨.other, s!"{text} (os error {n})"⟩

/-- The result of a system request, or the fault that it failed with. -/
def orFault {α : Type} (request : IO α) : IO (Except Fault α) := do
  try return .ok (← request)
  catch e => return .error (faultOf e)

def place (p : Path) := (IO.FS.DirEntry.mk p.text "").root

def presence (p : Path) : IO Presence := do
  match ← orFault (place p).metadata with
  | .error _ => return .absent
  | .ok found => return if found.type == .dir then .directory else .file

def contents (p : Path) : IO (Except Fault Bytes) :=
  orFault do return (← IO.FS.readBinFile p.text).data.toList

/-- A file opened for reading. A directory can be opened, but not read. -/
def openFile (p : Path) : IO (Except Fault Source) := do
  if (← presence p) = .directory then return .ok { rest := [], ending := some .isADirectory }
  return (← contents p).map fun b => { rest := b }

def kindOf (entry : IO.FS.DirEntry) : IO EntryKind := do
  match (← entry.path.symlinkMetadata).type with
  | .dir => return .directory
  | .symlink => return .link
  | _ => return .file

def listDirectory (p : Path) : IO (Except Fault (List (String × EntryKind))) :=
  orFault do (← (place p).readDir).toList.mapM fun entry => return (entry.fileName, ← kindOf entry)

def writePrivate (name : String) (content : Bytes) : IO Unit := do
  let handle ← IO.FS.Handle.mk name .writeNew
  IO.setAccessRights name { user := { read := true, write := true } }
  handle.write ⟨content.toArray⟩
  handle.flush

/-- Puts a complete private file at a path: it is written under another name and then renamed. -/
def replaceFile (p : Path) (content : Bytes) : IO (Except Fault Unit) := orFault do
  let mark := hexText (← IO.getRandomBytes 8).data.toList
  let name := (Tree.holderOf p / (".new-" ++ mark)).text
  try
    writePrivate name content
    IO.FS.rename name p.text
  catch e =>
    if (← presence ⟨name⟩) ≠ .absent then IO.FS.removeFile name
    throw e

def random (n : Nat) : IO (Except String (Octets n)) := do
  try
    match Octets.ofList? n (← IO.getRandomBytes n.toUSize).data.toList with
    | some b => return .ok b
    | none => return .error "too few random bytes"
  catch e => return .error (toString e)

/-- All that a stream delivers behind what has been read. -/
partial def readAll (stream : IO.FS.Stream) (front : ByteArray) : IO Bytes := do
  let piece ← stream.read 65536
  if piece.isEmpty then return front.data.toList
  readAll stream (front ++ piece)

def standardInput : IO Source := do
  return { rest := ← readAll (← IO.getStdin) .empty }

def writeOutput (b : Bytes) : IO Unit := do
  let stdout ← IO.getStdout
  stdout.write ⟨b.toArray⟩
  stdout.flush

def perform {α : Type} (format : LogFormat) : Plan α → IO α
  | .done a => return a
  | .askPresence p next => do perform format (next (← presence p))
  | .askFile p next => do perform format (next (← contents p))
  | .askSource p next => do perform format (next (← openFile p))
  | .askInput next => do perform format (next (← standardInput))
  | .askDirectory p next => do perform format (next (← listDirectory p))
  | .putDirectories p next => do perform format (next (← orFault (IO.FS.createDirAll p.text)))
  | .putFile p content next => do perform format (next (← replaceFile p content))
  | .askRandom n next => do perform format (next (← random n))
  | .note events next => do
    events.forM fun e => IO.eprintln (e.line format)
    perform format next
  | .print b next => do
    writeOutput b
    perform format next

def variableNames : List String :=
  [Invocation.configChoice.variableName, Invocation.levelChoice.variableName,
    Invocation.formatChoice.variableName, IdentitySearch.fileVariable,
    IdentitySearch.literalVariable, Session.filterVariable, "HOME"]

def environment : IO Environment := do
  let values ← variableNames.mapM fun name => return (name, ← IO.getEnv name)
  return fun name => (values.lookup name).join

/-- Tells a user how the program ended, if it failed or was called wrongly. -/
def tell : Outcome → IO Unit
  | .misused flaw => IO.eprintln s!"error: {flaw.text}"
  | outcome => (outcome.report?.toList).forM IO.eprintln

def run (words : List String) : IO Outcome := do
  match ← perform .text (Session.prepare (← environment) words) with
  | .error outcome => return outcome
  | .ok session => perform session.format session.run

end RepoSeal.Program

/-- The program: its exit status tells how it ended. -/
def main (words : List String) : IO UInt32 := do
  let outcome ← RepoSeal.Program.run words
  RepoSeal.Program.tell outcome
  return outcome.status
