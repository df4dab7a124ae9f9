import RepoSeal.Log

/-!
# RepoSeal — log filters

A filter is a list of directives. A directive names a part of the program, a field, both or neither,
and the least important level of their events that is let through; for an event the most specific
directive that covers it decides. A filter is written as directives with commas between them:

* `debug` is a level, for all events;
* `target=debug` is a level for the parts of the program whose names begin like this;
* `target` alone lets everything of these parts through;
* `[{field}]` behind a target, or without one, restricts a directive to events with that field.

A scope in the brackets, or a value for the field, makes a directive about events within scopes. The
program has none, so such a directive decides nothing.
-/

namespace RepoSeal

/-- The least important level that is let through; without one nothing is. -/
abbrev Threshold := Option LogLevel

structure LogDirective where
  target : Option String := none
  field : Option String := none
  withinScope : Bool := false
  threshold : Threshold := some .trace
deriving DecidableEq

structure LogFilter where
  directives : List LogDirective

/-! ## What a filter lets through -/

namespace LogDirective

def covers (d : LogDirective) (e : LogEvent) : Bool :=
  !d.withinScope &&
    (match d.target with
      | none => true
      | some t => t.toList.isPrefixOf e.origin.target.toList) &&
    (match d.field with
      | none => true
      | some f => f = "message" || e.fields.any (·.1 = f))

/-- Whether the second directive decides when both cover an event: its target is longer, or it names
a later field, or neither is so of the first. -/
def yields (a b : LogDirective) : Bool :=
  let length (d : LogDirective) : Nat := (d.target.map (·.utf8ByteSize + 1)).getD 0
  length a < length b ||
    (length a = length b &&
      match a.field, b.field with
      | none, _ => true
      | some _, none => false
      | some f, some g => f ≤ g)

def passes (d : LogDirective) (e : LogEvent) : Bool :=
  match d.threshold with
  | none => false
  | some level => e.level.rank ≤ level.rank

end LogDirective

namespace LogFilter

def deciding (f : LogFilter) (e : LogEvent) : Option LogDirective :=
  (f.directives.filter (·.covers e)).foldl
    (fun best d => match best with
      | some b => if b.yields d then some d else best
      | none => some d)
    none

def passes (f : LogFilter) (e : LogEvent) : Bool :=
  match f.deciding e with
  | some d => d.passes e
  | none => false

end LogFilter

/-! ## Reading -/

/-- The names of the thresholds, in the order of their numbers. -/
def thresholdNames : List (String × Threshold) :=
  [("off", none), ("error", some .error), ("warn", some .warn), ("info", some .info),
    ("debug", some .debug), ("trace", some .trace)]

/-- The number that a text writes: digits, with or without a plus in front. -/
def plainNumber? (cs : List Char) : Option Nat :=
  let digits := match cs with
    | '+' :: rest => rest
    | _ => cs
  if digits ≠ [] && digits.all Char.isDigit then
    some (digits.foldl (fun n c => n * 10 + (c.toNat - 48)) 0)
  else none

/-- The threshold that a text writes, as a name in letters of either case or as a number. -/
def readThreshold (cs : List Char) : Option Threshold :=
  match plainNumber? cs with
  | some n => thresholdNames[n]?.map (·.2)
  | none =>
    (thresholdNames.find? fun entry => entry.1.toList = cs.map Char.toLower).map (·.2)

/-- A list of characters before the first one of some, that one, and what is behind it. -/
def cutAt (stops : List Char) : List Char → List Char × Option (Char × List Char)
  | [] => ([], none)
  | c :: rest =>
    if stops.contains c then ([], some (c, rest))
    else
      let (front, back) := cutAt stops rest
      (c :: front, back)

namespace LogDirective

def ofTarget (cs : List Char) : LogDirective := { target := some (String.ofList cs) }

/-- Reads a threshold into a directive. Where none is written everything is let through. -/
def withThreshold (d : LogDirective) (cs : List Char) : Option LogDirective :=
  if cs.isEmpty then some d else (readThreshold cs).map fun t => { d with threshold := t }

/-- Reads what is behind the brackets. -/
def readTail (d : LogDirective) : List Char → Option LogDirective
  | [] => some d
  | '=' :: level => d.withThreshold level
  | _ => none

/-- Reads what is in the brackets and behind them. -/
def readBrackets (d : LogDirective) (cs : List Char) : Option LogDirective :=
  match cutAt [']', '\x7b'] cs with
  | (_, some (']', rest)) => { d with withinScope := true }.readTail rest
  | (scope, some (_, rest)) =>
    match cutAt ['\x7d'] rest with
    | (field, some (_, ']' :: rest')) =>
      if field.isEmpty then none
      else
        let (name, value) := cutAt ['='] field
        { d with
          field := some (String.ofList name)
          withinScope := !scope.isEmpty || value.isSome }.readTail rest'
    | _ => none
  | _ => none

/-- Whether a directive may begin with a character. All characters beyond ASCII count as letters. -/
def mayBegin (c : Char) : Bool := c.isAlphanum || c == '-' || c == ':' || c == '_' || 127 < c.toNat

/-- The directive that a text without commas writes. -/
def read (cs : List Char) : Option LogDirective :=
  match cs with
  | [] => none
  | '[' :: rest => readBrackets {} rest
  | c :: _ =>
    if !mayBegin c then none
    else
      match cutAt ['=', '['] cs with
      | (target, some ('=', level)) => (ofTarget target).withThreshold level
      | (target, some (_, rest)) => (ofTarget target).readBrackets rest
      | (_, none) =>
        match readThreshold cs with
        | some threshold => some { threshold }
        | none => some (ofTarget cs)

end LogDirective

namespace LogFilter

/-- The texts between the commas of a text, without empty ones. -/
def pieces (text : String) : List (List Char) :=
  let cut := text.toList.foldr
    (fun c ps => match c, ps with
      | ',', _ => [] :: ps
      | _, p :: rest => (c :: p) :: rest
      | _, [] => [[c]])
    [[]]
  cut.filter (· ≠ [])

/-- The filter that a text writes, all of whose directives must be well formed. -/
def ofText? (text : String) : Option LogFilter :=
  ((pieces text).mapM LogDirective.read).map LogFilter.mk

/-- The filter of the well-formed directives in a text. If there are none, it lets errors through. -/
def ofText (text : String) : LogFilter :=
  match (pieces text).filterMap LogDirective.read with
  | [] => ⟨[{ threshold := some .error }]⟩
  | ds => ⟨ds⟩

/-- The filter for a level and the text of the variable that overrides it, which counts only if it is
well formed. -/
def choose (override : Option String) (level : String) : LogFilter :=
  (override.bind ofText?).getD (ofText level)

end LogFilter

end RepoSeal
