import RepoSeal.Log
import RepoSeal.Text.Quoted

/-!
# RepoSeal — log lines

An event is written as one line, either for readers or as a JSON object for programs.
-/

namespace RepoSeal

inductive LogFormat
  | json
  | text
deriving DecidableEq, Repr

namespace LogFormat

def names : List (String × LogFormat) := [("json", .json), ("text", .text)]

def ofName? (name : String) : Option LogFormat := (names.find? (·.1 = name)).map (·.2)

end LogFormat

def LogLevel.name : LogLevel → String
  | error => "ERROR"
  | warn => "WARN"
  | info => "INFO"
  | debug => "DEBUG"
  | trace => "TRACE"

def jsonChar (c : Char) : List Char :=
  match c with
  | '"' => ['\\', '"']
  | '\\' => ['\\', '\\']
  | _ =>
    if c.toNat < 32 then
      ['\\', 'u', '0', '0', hexDigit (c.toNat / 16), hexDigit (c.toNat % 16)]
    else [c]

def jsonText (s : String) : String :=
  String.ofList ('"' :: s.toList.flatMap jsonChar ++ ['"'])

def jsonObject (members : List (String × String)) : String :=
  "\x7b" ++ ",".intercalate (members.map fun m => jsonText m.1 ++ ":" ++ m.2) ++ "\x7d"

namespace LogValue

def json : LogValue → String
  | text s => jsonText s
  | number n => toString n
  | flag b => toString b

def plain : LogValue → String
  | text s => Text.quoted s
  | number n => toString n
  | flag b => toString b

end LogValue

def LogEvent.line (e : LogEvent) : LogFormat → String
  | .json =>
    let fields := ("message", jsonText e.message) :: e.fields.map fun f => (f.1, f.2.json)
    jsonObject [("level", jsonText e.level.name), ("fields", jsonObject fields),
      ("target", jsonText e.origin.target)]
  | .text =>
    let fields := e.fields.map fun f => s!" {f.1}=" ++ f.2.plain
    s!"{e.level.name} {e.origin.target}: {e.message}" ++ String.join fields

end RepoSeal
