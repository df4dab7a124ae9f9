import RepoSeal.Command.Basic
import RepoSeal.Command.Words
import RepoSeal.Identity.Search
import RepoSeal.Log.Line

/-!
# RepoSeal — invocations

An invocation is a command with the choices that stand before its name: the file of the configuration
and what is logged. Such a choice can also be made by a variable of the environment, which counts only
if the words do not make it.
-/

namespace RepoSeal

structure Invocation where
  config : Path := ⟨".git/git-crypt.toml"⟩
  /-- What is logged, instead of what the configuration says. -/
  level : Option String := none
  /-- The form of log lines, instead of what the configuration says. -/
  format : Option LogFormat := none
  command : Command
deriving DecidableEq

namespace Command

/-! ## The commands -/

def helpOption : OptionRule := { name := "help", letter := some 'h', effect := .ask .help }

def nameOption : OptionRule := { name := "key-name", letter := some 'k' }

def fileOption : OptionRule := { name := "key-file", effect := .value .path }

def trustedOption : OptionRule := { name := "trusted", effect := .flag }

/-- The name of a command, the words that it may have, and the command that they make, unless there
are too few of them. -/
structure CommandRule where
  name : String
  shape : Shape
  make : Given → Option Command

def nameIn (g : Given) : Option String := g.value? nameOption.name

def keyIn (g : Given) : KeyChoice :=
  { name := nameIn g, file := (g.value? fileOption.name).map Path.mk }

def rules : List CommandRule :=
  [{ name := "keygen"
     shape := { options := [nameOption, helpOption], most := some 1 }
     make := fun g => match g.operands with
       | [path] => some (.keygen ⟨path⟩ (nameIn g))
       | _ => none },
   { name := "clean"
     shape := { options := [nameOption, fileOption, helpOption], most := some 0 }
     make := fun g => some (.clean (keyIn g)) },
   { name := "smudge"
     shape := { options := [nameOption, fileOption, helpOption], most := some 0 }
     make := fun g => some (.smudge (keyIn g)) },
   { name := "diff"
     shape := { options := [nameOption, fileOption, helpOption], most := some 1 }
     make := fun g => match g.operands with
       | [file] => some (.diff ⟨file⟩ (keyIn g))
       | _ => none },
   { name := "export-key"
     shape := { options := [nameOption, fileOption, helpOption], most := some 1 }
     make := fun g => match g.operands with
       | [path] => some (.exportKey ⟨path⟩ (keyIn g))
       | _ => none },
   { name := "migrate-key"
     shape := { options := [helpOption], most := some 2 }
     make := fun g => match g.operands with
       | [old, new] => some (.migrateKey ⟨old⟩ ⟨new⟩)
       | _ => none },
   { name := "unlock"
     shape := { options := [helpOption] }
     make := fun g => some (.unlock (g.operands.map Path.mk)) },
   { name := "add-collaborator"
     shape := { options := [trustedOption, nameOption, helpOption], operand := .text }
     make := fun g => match g.operands with
       | [] => none
       | recipients =>
         some (.addCollaborator recipients (g.has trustedOption.name) (nameIn g)) },
   { name := "ls-collaborators"
     shape := { options := [helpOption], most := some 0 }
     make := fun _ => some .lsCollaborators }]

/-- The command that some words make behind its name. -/
def ofWords (rule : CommandRule) (words : List String) : Except Stop Command := do
  let (g, _) ← rule.shape.read {} words
  match rule.make g with
  | some command => return command
  | none => .error (.misused (.missingOperand rule.name))

def ruleOf (name : String) : Except Stop CommandRule :=
  match rules.find? (·.name = name) with
  | some rule => .ok rule
  | none => .error (.misused (.unknownCommand name))

def helpName : String := "help"

/-- What it means to ask for help with some words, which may name one command. -/
def helpFor : List String → Stop
  | [] => .asked .help
  | [name] =>
    if name = helpName then .asked .help
    else match ruleOf name with
      | .ok _ => .asked .help
      | .error stop => stop
  | _ :: word :: _ => .misused (.unknownCommand word)

end Command

namespace Invocation

open Command

/-! ## The choices before a command -/

/-- A choice that can be made by an option or by a variable. -/
structure Choice where
  option : OptionRule
  variableName : String

def configChoice : Choice where
  option := { name := "config", letter := some 'c', effect := .value .path }
  variableName := "GITCRYPT_CONFIG"

def levelChoice : Choice where
  option := { name := "log" }
  variableName := "GITCRYPT_LOG"

def formatChoice : Choice where
  option := { name := "log-format", effect := .value (.choice (LogFormat.names.map (·.1))) }
  variableName := "GITCRYPT_LOG_FORMAT"

def versionOption : OptionRule := { name := "version", letter := some 'V', effect := .ask .version }

/-- The words before a command, with its name. -/
def shape : Shape where
  options := [configChoice.option, levelChoice.option, formatChoice.option, helpOption, versionOption]
  most := some 0
  leads := true

/-- What was chosen by an option or, if that is not there, by the variable. -/
def chosen (env : Environment) (g : Given) (c : Choice) : Except Stop (Option String) :=
  match g.value? c.option.name, env c.variableName with
  | some value, _ => .ok (some value)
  | none, none => .ok none
  | none, some value =>
    match c.option.effect with
    | .value kind =>
      if kind.accepts value then .ok (some value)
      else .error (.misused (.refusedValue c.variableName value))
    | _ => .ok (some value)

def ofWords (env : Environment) (words : List String) : Except Stop Invocation := do
  match ← shape.read {} words with
  | (_, []) => .error (.misused .missingCommand)
  | (g, name :: rest) =>
    if name = helpName then .error (helpFor rest)
    else
      let command ← Command.ofWords (← ruleOf name) rest
      let config ← chosen env g configChoice
      let level ← chosen env g levelChoice
      let format ← chosen env g formatChoice
      let made : Invocation := { level, format := format.bind LogFormat.ofName?, command }
      match config with
      | some p => return { made with config := ⟨p⟩ }
      | none => return made

end Invocation

end RepoSeal
