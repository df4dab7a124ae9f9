import RepoSeal.Command.Keys
import RepoSeal.Envelope.Opening
import RepoSeal.Envelope.Sealing

/-!
# RepoSeal — filter commands

A filter seals or opens one stream; what it makes goes to the standard output. What was written before
a failure stays written.
-/

namespace RepoSeal.Command

/-- Puts the output of a run on the standard output. -/
def writeRun {α : Type} (r : Envelope.Run α) : Attempt Error α := do
  Attempt.ask (Plan.log r.log)
  Attempt.ask (Plan.write r.sink.bytes)
  Attempt.ofExcept r.result

def finishedEvent (bytes : Nat) : LogEvent :=
  ⟨.debug, .command, "clean finished", [("bytes", .number bytes)]⟩

/-- The event that tells of a stream that was not sealed. -/
def passedEvent (origin : String) (bytes : Nat) : LogEvent :=
  ⟨.warn, .command, "file not encrypted; passed through unchanged",
    [("source", .text origin), ("bytes", .number bytes)]⟩

/-- The event that tells of a stream that is not what was sealed. -/
def tamperedEvent (origin : String) : LogEvent :=
  ⟨.error, .command, "encrypted file has been tampered with", [("source", .text origin)]⟩

/-- Seals the standard input with the greatest version of the chosen key. -/
def sealInput (w : Workplace) (key : KeyChoice) : Attempt Failure Ending := do
  let kf ← w.loadKey key
  let entry ← Attempt.ofExcept (kf.requireLatest.mapError .library)
  let input ← Attempt.ask Plan.input
  let bytes ← (writeRun (Envelope.sealWith entry w.config.options input {})).inLibrary.during
    .sealingInput
  Attempt.ask (Plan.log [finishedEvent bytes])
  return .done

/-- How a filter ends that opened a stream. Data that was never sealed is nothing unusual for a reader
that compares files. -/
def endOpened (origin : String) (unusual : Bool) : Envelope.Opened → Plan Ending
  | .authentic _ => return .done
  | .notEncrypted bytes => do
    if unusual then Plan.log [passedEvent origin bytes]
    return .done
  | .tampered _ => do
    Plan.log [tamperedEvent origin]
    return .tampered

def openInput (w : Workplace) (key : KeyChoice) : Attempt Failure Ending := do
  let kf ← w.loadKey key
  let input ← Attempt.ask Plan.input
  let opened ← (writeRun (Envelope.openWith kf w.config.options input {})).inLibrary.during
    .openingInput
  Attempt.ask (endOpened "stdin" true opened)

def openForDiff (w : Workplace) (file : Path) (key : KeyChoice) : Attempt Failure Ending := do
  let source ← (Attempt.orBareFault (Plan.openFile file)).during (.openingFile file)
  let kf ← w.loadKey key
  let opened ← (writeRun (Envelope.openWith kf w.config.options source {})).inLibrary.during
    (.decryptingFile file)
  Attempt.ask (endOpened file.text false opened)

end RepoSeal.Command
