import RepoSeal.Error
import RepoSeal.Log
import RepoSeal.Tree.Files

/-!
# RepoSeal — plans

What works on files is written as a plan: a program that is finished, or asks its surroundings for
one thing and goes on with the answer. Plans run on a tree in memory (`Plan.run`); a program with
real files answers the same requests.
-/

namespace RepoSeal

/-- A program that asks its surroundings. -/
inductive Plan (α : Type) : Type where
  | done (result : α)
  /-- What a path leads to. -/
  | askPresence (p : Path) (next : Presence → Plan α)
  /-- The contents of a file. -/
  | askFile (p : Path) (next : Except Fault Bytes → Plan α)
  /-- A file opened for reading. -/
  | askSource (p : Path) (next : Except Fault Source → Plan α)
  /-- The standard input. -/
  | askInput (next : Source → Plan α)
  /-- The names in a directory. -/
  | askDirectory (p : Path) (next : Except Fault (List (String × EntryKind)) → Plan α)
  /-- A directory at a path, with the missing ones on the way. -/
  | putDirectories (p : Path) (next : Except Fault Unit → Plan α)
  /-- A complete private file at a path, in one step. -/
  | putFile (p : Path) (content : Bytes) (next : Except Fault Unit → Plan α)
  /-- Fresh random bytes, or why there are none. -/
  | askRandom (n : Nat) (next : Except String (Octets n) → Plan α)
  /-- Events to note. -/
  | note (events : Log) (next : Plan α)
  /-- Bytes for the standard output. -/
  | print (b : Bytes) (next : Plan α)

namespace Plan

variable {α β : Type}

/-- Goes on with the result of a plan. -/
def bind (p : Plan α) (f : α → Plan β) : Plan β :=
  match p with
  | done a => f a
  | askPresence p next => askPresence p fun r => bind (next r) f
  | askFile p next => askFile p fun r => bind (next r) f
  | askSource p next => askSource p fun r => bind (next r) f
  | askInput next => askInput fun r => bind (next r) f
  | askDirectory p next => askDirectory p fun r => bind (next r) f
  | putDirectories p next => putDirectories p fun r => bind (next r) f
  | putFile p content next => putFile p content fun r => bind (next r) f
  | askRandom n next => askRandom n fun r => bind (next r) f
  | note events next => note events (bind next f)
  | print b next => print b (bind next f)

instance : Monad Plan where
  pure := done
  bind := bind

/-! ## The requests -/

def presence (p : Path) : Plan Presence := askPresence p done
def contents (p : Path) : Plan (Except Fault Bytes) := askFile p done
def openFile (p : Path) : Plan (Except Fault Source) := askSource p done
def input : Plan Source := askInput done
def listDirectory (p : Path) : Plan (Except Fault (List (String × EntryKind))) :=
  askDirectory p done
def makeDirectories (p : Path) : Plan (Except Fault Unit) := putDirectories p done
def replaceFile (p : Path) (content : Bytes) : Plan (Except Fault Unit) := putFile p content done
def random (n : Nat) : Plan (Except String (Octets n)) := askRandom n done
def log (events : Log) : Plan Unit := note events (done ())
def write (b : Bytes) : Plan Unit := print b (done ())

/-- Whether a path leads to anything. -/
def exists_ (p : Path) : Plan Bool := do return (← presence p) ≠ .absent

/-- Writes a line of text. -/
def writeLine (text : String) : Plan Unit := write (utf8 (text ++ "\n"))

/-- The text of a file. -/
def readText (p : Path) : Plan (Except Fault String) := do
  match ← contents p with
  | .error fault => return .error fault
  | .ok b =>
    match ofUtf8? b with
    | some text => return .ok text
    | none => return .error .notText

/-- A plan of which only some events are noted. -/
def logging (keep : LogEvent → Bool) (p : Plan α) : Plan α :=
  match p with
  | done a => done a
  | askPresence p next => askPresence p fun r => logging keep (next r)
  | askFile p next => askFile p fun r => logging keep (next r)
  | askSource p next => askSource p fun r => logging keep (next r)
  | askInput next => askInput fun r => logging keep (next r)
  | askDirectory p next => askDirectory p fun r => logging keep (next r)
  | putDirectories p next => putDirectories p fun r => logging keep (next r)
  | putFile p content next => putFile p content fun r => logging keep (next r)
  | askRandom n next => askRandom n fun r => logging keep (next r)
  | note events next => note (events.filter keep) (logging keep next)
  | print b next => print b (logging keep next)

end Plan

/-! ## Running on a tree -/

/-- Surroundings in memory. -/
structure World where
  tree : Tree := {}
  /-- What the standard input delivers. -/
  input : Source := { rest := [] }
  log : Log := []
  printed : Bytes := []
  /-- An endless supply of random bytes. -/
  supply : Nat → UInt8 := fun _ => 0
  /-- How many of them have been drawn. -/
  drawn : Nat := 0

namespace World

/-- Draws random bytes. -/
def draw (w : World) (n : Nat) : Octets n × World :=
  (⟨(List.range n).map fun i => w.supply (w.drawn + i), by simp⟩, { w with drawn := w.drawn + n })

end World

/-- The result of a plan in surroundings in memory, and the surroundings after it. -/
def Plan.run {α : Type} (p : Plan α) (w : World) : α × World :=
  match p with
  | done a => (a, w)
  | askPresence p next => run (next (w.tree.presence p)) w
  | askFile p next => run (next (w.tree.contentsAt p)) w
  | askSource p next => run (next (w.tree.openFile p)) w
  | askInput next => run (next w.input) w
  | askDirectory p next => run (next (w.tree.listDirectory p)) w
  | putDirectories p next =>
    let (r, tree) := w.tree.makeDirectories p
    run (next r) { w with tree }
  | putFile p content next =>
    match w.tree.replaceFile p content with
    | .ok tree => run (next (.ok ())) { w with tree }
    | .error fault => run (next (.error fault)) w
  | askRandom n next =>
    let (b, w') := w.draw n
    run (next (.ok b)) w'
  | note events next => run next { w with log := w.log ++ events }
  | print b next => run next { w with printed := w.printed ++ b }

/-- Running a plan that goes on with another one runs them one after the other. -/
theorem Plan.run_bind {α β : Type} (p : Plan α) (f : α → Plan β) (w : World) :
    (p >>= f).run w = (f (p.run w).1).run (p.run w).2 := by
  change (p.bind f).run w = _
  induction p generalizing w with
  | done a => rfl
  | askPresence p next ih => exact ih _ _
  | askFile p next ih => exact ih _ _
  | askSource p next ih => exact ih _ _
  | askInput next ih => exact ih _ _
  | askDirectory p next ih => exact ih _ _
  | putDirectories p next ih => exact ih _ _
  | putFile p content next ih =>
    simp only [bind, run]
    split <;> exact ih _ _
  | askRandom n next ih => exact ih _ _
  | note events next ih => exact ih _
  | print b next ih => exact ih _

/-- What a plan does does not depend on which events are noted. -/
theorem Plan.run_logging {α : Type} (keep : LogEvent → Bool) (p : Plan α) (w : World) (l : Log) :
    ∃ l', (p.logging keep).run { w with log := l } =
      ((p.run w).1, { (p.run w).2 with log := l' }) := by
  induction p generalizing w l with
  | done a => exact ⟨l, rfl⟩
  | askPresence p next ih => exact ih _ w l
  | askFile p next ih => exact ih _ w l
  | askSource p next ih => exact ih _ w l
  | askInput next ih => exact ih _ w l
  | askDirectory p next ih => exact ih _ w l
  | putDirectories p next ih => exact ih _ { w with tree := (w.tree.makeDirectories p).2 } l
  | putFile p content next ih =>
    simp only [logging, run]
    cases w.tree.replaceFile p content with
    | ok tree => exact ih _ { w with tree } l
    | error fault => exact ih _ w l
  | askRandom n next ih => exact ih _ (w.draw n).2 l
  | note events next ih => exact ih { w with log := w.log ++ events } (l ++ events.filter keep)
  | print b next ih => exact ih { w with printed := w.printed ++ b } l

/-! ## Plans that can fail -/

/-- A plan whose result may be an error. -/
abbrev Attempt (ε α : Type) := ExceptT ε Plan α

namespace Attempt

variable {ε α : Type}

/-- Ends a plan with an error. -/
def fail (e : ε) : Attempt ε α := ExceptT.mk (Plan.done (.error e))

/-- Goes on with a result, or ends with its error. -/
def ofExcept (r : Except ε α) : Attempt ε α := ExceptT.mk (Plan.done r)

/-- Asks, and ends with an error of the library if there is a fault. -/
def orFault (p : Plan (Except Fault α)) : Attempt Error α := ExceptT.mk do
  match ← p with
  | .ok a => return .ok a
  | .error fault => return .error (.io fault)

/-- Asks something that cannot fail. -/
def ask (p : Plan α) : Attempt ε α := ExceptT.mk (p >>= fun a => Plan.done (.ok a))

end Attempt

end RepoSeal
