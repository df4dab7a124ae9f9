import RepoSeal.Command.Filters
import RepoSeal.Command.Invocation
import RepoSeal.Command.Sharing
import RepoSeal.Log.Filter

/-!
# RepoSeal — sessions

A call of the program reads its words and the configuration, which gives a session: a command, where
it runs and what is logged of it. Then the command runs. Nothing is logged before there is a session,
because until then it is not known what should be.
-/

namespace RepoSeal

def Command.run (w : Workplace) : Command → Attempt Failure Ending
  | .clean key => sealInput w key
  | .smudge key => openInput w key
  | .diff file key => openForDiff w file key
  | .keygen p name => generateKey p name
  | .exportKey p key => copyKey w p key
  | .migrateKey old new => convertKey old new
  | .unlock files => installKeys w files
  | .addCollaborator recipients trusted name => share w recipients trusted name
  | .lsCollaborators => listShared w

inductive Outcome
  | ended (ending : Ending)
  | failed (failure : Failure)
  | asked (request : Command.Request)
  | misused (flaw : Command.Misuse)
deriving DecidableEq

namespace Outcome

/-- The number that tells a caller how the program ended. -/
def status : Outcome → UInt32
  | ended .done => 0
  | ended .tampered => 1
  | failed _ => 1
  | asked _ => 0
  | misused _ => 2

def report? : Outcome → Option String
  | failed f => some f.report
  | _ => none

end Outcome

def programName : String := "git-crypt"

def programVersion : String := "0.1.0"

def helpText : String :=
  s!"Usage: {programName} [OPTIONS] <COMMAND>\n\nCommands:\n" ++
    String.join (Command.rules.map fun rule => s!"  {rule.name}\n") ++
    "\nOptions:\n" ++
    String.join (Invocation.shape.options.map fun rule => s!"  --{rule.name}\n")

def Command.Request.answer : Command.Request → String
  | help => helpText
  | version => s!"{programName} {programVersion}\n"

/-- A command, where it runs and what is logged of it. -/
structure Session where
  invocation : Invocation
  workplace : Workplace
  format : LogFormat
  filter : LogFilter

namespace Session

def filterVariable : String := "RUST_LOG"

/-- The session of an invocation with the configuration that was found. -/
def ofConfig (env : Environment) (i : Invocation) (config : Config) : Session where
  invocation := i
  workplace := { env, config }
  format := i.format.getD (if config.logging.format = "json" then .json else .text)
  filter := .choose (env filterVariable) (i.level.getD config.logging.level)

def prepare (env : Environment) (words : List String) : Plan (Except Outcome Session) := do
  match Invocation.ofWords env words with
  | .error (.asked request) =>
    Plan.write (utf8 request.answer)
    return .error (.asked request)
  | .error (.misused flaw) => return .error (.misused flaw)
  | .ok i =>
    let load := (Config.load i.config).inLibrary.during (.loadingConfig i.config)
    match ← Plan.logging (fun _ => false) load.run with
    | .ok config => return .ok (ofConfig env i config)
    | .error f => return .error (.failed f)

def startingEvent (s : Session) : LogEvent :=
  ⟨.debug, .command, "git-crypt starting",
    [("version", .text programVersion), ("config", .text s.invocation.config.text)]⟩

def run (s : Session) : Plan Outcome :=
  Plan.logging s.filter.passes do
    Plan.log [s.startingEvent]
    match ← (s.invocation.command.run s.workplace).run with
    | .ok ending => return .ended ending
    | .error f => return .failed f

end Session

end RepoSeal
