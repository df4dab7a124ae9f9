import RepoSeal.Text.Quoted

/-!
# RepoSeal — words of a command line

The words behind the name of a command are options and operands. An option begins with two hyphens
and a name or with a hyphen and a letter; its value is attached to it or is the next word, which then
may not begin with a hyphen, unless it is one. Behind two hyphens that stand alone all words are
operands. Words are read from left to right, and the first that is wrong, or asks for help or for the
version, ends the reading.
-/

namespace RepoSeal.Command

/-- What a user can ask for instead of a command. -/
inductive Request
  | help
  | version
deriving DecidableEq, Repr

/-- What is wrong with the words of a command line. -/
inductive Misuse
  | unknownOption (word : String)
  | missingValue (option : String)
  | refusedValue (name value : String)
  | unwantedValue (option : String)
  | repeatedOption (option : String)
  | unexpectedWord (word : String)
  | missingOperand (command : String)
  | unknownCommand (word : String)
  | missingCommand
deriving DecidableEq

def Misuse.text : Misuse → String
  | unknownOption word => s!"unexpected argument {Text.quoted word} found"
  | missingValue option => s!"a value is required for --{option}"
  | refusedValue name value => s!"invalid value {Text.quoted value} for {name}"
  | unwantedValue option => s!"no value is expected for --{option}"
  | repeatedOption option => s!"--{option} cannot be used multiple times"
  | unexpectedWord word => s!"unexpected argument {Text.quoted word} found"
  | missingOperand command => s!"a required argument of {command} was not provided"
  | unknownCommand word => s!"unrecognized subcommand {Text.quoted word}"
  | missingCommand => "a subcommand is required"

/-- Why reading words ended before a command was found. -/
inductive Stop
  | asked (request : Request)
  | misused (flaw : Misuse)
deriving DecidableEq

/-! ## Rules for words -/

/-- Which texts a value may have. -/
inductive ValueKind
  | text
  /-- A text that is not empty. -/
  | path
  | choice (texts : List String)

def ValueKind.accepts : ValueKind → String → Bool
  | text, _ => true
  | path, s => !s.isEmpty
  | choice texts, s => texts.contains s

inductive OptionEffect
  | flag
  | value (kind : ValueKind)
  | ask (request : Request)

structure OptionRule where
  name : String
  letter : Option Char := none
  effect : OptionEffect := .value .text

/-- Which words may be behind the name of a command. -/
structure Shape where
  options : List OptionRule := []
  /-- The operands: which texts they may have. -/
  operand : ValueKind := .path
  /-- How many operands there may be at most, if there is a limit. -/
  most : Option Nat := none
  /-- Whether the first operand is the name of a command with words of its own. -/
  leads : Bool := false

structure Given where
  /-- The options by name, with their values. -/
  options : List (String × Option String) := []
  operands : List String := []

namespace Given

def has (g : Given) (name : String) : Bool := g.options.any (·.1 = name)

def value? (g : Given) (name : String) : Option String :=
  (g.options.find? (·.1 = name)).bind (·.2)

end Given

/-! ## Reading -/

inductive WordForm
  | ending
  /-- Not an option. -/
  | plain
  /-- An option without a rule. -/
  | unknown
  /-- An option with the value that is attached to it. -/
  | option (rule : OptionRule) (attached : Option String)

namespace Shape

def ruleOfName (shape : Shape) (name : String) : Option OptionRule :=
  shape.options.find? (·.name = name)

def ruleOfLetter (shape : Shape) (letter : Char) : Option OptionRule :=
  shape.options.find? (·.letter = some letter)

/-- The value behind the letter of an option, with or without an equals sign. Behind a letter that
asks for something nothing counts. -/
def attachedTo (rule : OptionRule) : List Char → Option String
  | [] => none
  | c :: cs =>
    match rule.effect with
    | .ask _ => none
    | _ => some (String.ofList (if c = '=' then cs else c :: cs))

def formOf (shape : Shape) (word : String) : WordForm :=
  match word.toList with
  | ['-', '-'] => .ending
  | '-' :: '-' :: cs =>
    match shape.ruleOfName (String.ofList (cs.takeWhile (· ≠ '='))) with
    | none => .unknown
    | some rule =>
      .option rule (match cs.dropWhile (· ≠ '=') with
        | [] => none
        | _ :: value => some (String.ofList value))
  | '-' :: letter :: cs =>
    match shape.ruleOfLetter letter with
    | none => .unknown
    | some rule => .option rule (attachedTo rule cs)
  | _ => .plain

/-- Whether a word can be the value of the option before it. -/
def standsAlone (word : String) : Bool :=
  match word.toList with
  | '-' :: _ :: _ => false
  | _ => true

/-- Notes an option, which may be given only once. -/
def putOption (rule : OptionRule) (value : Option String) (g : Given) : Except Stop Given :=
  if g.has rule.name then .error (.misused (.repeatedOption rule.name))
  else .ok { g with options := g.options ++ [(rule.name, value)] }

def putValue (rule : OptionRule) (kind : ValueKind) (value : String) (g : Given) :
    Except Stop Given :=
  if kind.accepts value then putOption rule (some value) g
  else .error (.misused (.refusedValue ("--" ++ rule.name) value))

def putOperand (shape : Shape) (g : Given) (word : String) : Except Stop Given :=
  if shape.most.any (· ≤ g.operands.length) then .error (.misused (.unexpectedWord word))
  else if shape.operand.accepts word then .ok { g with operands := g.operands ++ [word] }
  else .error (.misused (.refusedValue "an operand" word))

/-- Reads words from left to right. The name of a command and the words behind it are left. -/
def read (shape : Shape) (g : Given) : List String → Except Stop (Given × List String)
  | [] => .ok (g, [])
  | word :: rest =>
    match shape.formOf word with
    | .ending => do return (← rest.foldlM shape.putOperand g, [])
    | .plain =>
      if shape.leads then .ok (g, word :: rest)
      else do shape.read (← shape.putOperand g word) rest
    | .unknown => .error (.misused (.unknownOption word))
    | .option rule attached =>
      match rule.effect, attached with
      | .ask request, none => .error (.asked request)
      | .flag, none => do shape.read (← putOption rule none g) rest
      | .value kind, some value => do shape.read (← putValue rule kind value g) rest
      | .value kind, none =>
        match rest with
        | next :: rest' =>
          if standsAlone next then do shape.read (← putValue rule kind next g) rest'
          else .error (.misused (.missingValue rule.name))
        | [] => .error (.misused (.missingValue rule.name))
      | _, some _ => .error (.misused (.unwantedValue rule.name))

end Shape

end RepoSeal.Command
