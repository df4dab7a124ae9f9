import RepoSeal.Fault
import RepoSeal.Path

/-!
# RepoSeal — directory trees

A tree is what lies below the working directory: directories, files with their permission bits, and
symbolic links. A node sits at a location, the list of names that leads to it; the working directory
itself is the empty location. Looking a path up walks from there, through directories and links, and
a path that leads out of the tree, as every absolute one does, finds nothing.
-/

namespace RepoSeal

/-- The names that lead from the working directory to a node. -/
abbrev Location := List String

inductive Node
  | directory
  | file (content : Bytes) (mode : Nat)
  | link (target : Path)
deriving DecidableEq

/-- The nodes below the working directory, each with its location. -/
structure Tree where
  nodes : List (Location × Node) := []
deriving DecidableEq

namespace Tree

def find? (t : Tree) (at_ : Location) : Option Node :=
  if at_.isEmpty then some .directory
  else (t.nodes.find? (·.1 = at_)).map Prod.snd

/-- Puts a node at a location, in place of what was there. -/
def put (t : Tree) (at_ : Location) (node : Node) : Tree :=
  if t.nodes.any (·.1 = at_) then
    { nodes := t.nodes.map fun e => if e.1 = at_ then (at_, node) else e }
  else { nodes := t.nodes ++ [(at_, node)] }

def remove (t : Tree) (at_ : Location) : Tree :=
  { nodes := t.nodes.filter fun e => e.1 ≠ at_ }

def childrenOf (t : Tree) (dir : Location) : List (String × Node) :=
  t.nodes.filterMap fun e =>
    match e.1.getLast? with
    | some name => if e.1.dropLast = dir then some (name, e.2) else none
    | none => none

/-! ## Looking paths up -/

inductive Purpose
  | use
  /-- To change the entry that it names: a link in this place is not followed. -/
  | change
deriving DecidableEq, Repr

inductive Spot
  | found (at_ : Location) (node : Node)
  /-- There is none, but the directory that it would be in. -/
  | vacant (dir : Location) (name : String)
  /-- The path names an entry of a directory, which may be there or not. `slash` tells whether one
  stands behind the name. -/
  | entry (dir : Location) (name : String) (slash : Bool)
  /-- The path ends in dots, so it names no entry. -/
  | dots
deriving DecidableEq

/-- How many links a walk may follow. -/
def maxLinks : Nat := 40

/-- The most bytes in a name. -/
def maxNameLength : Nat := 255

/-- The most bytes in a path. -/
def maxPathLength : Nat := 4095

/-- The steps of a walk along a path: its parts, and what stands behind the last one. -/
def steps (p : Path) : List String := p.parts ++ p.ending

/-- Whether nothing but slashes is left of a walk. -/
def isLast (todo : List String) : Bool := todo.all (· = "/")

def walk (t : Tree) (purpose : Purpose) (links : Nat) (dir : Location) (todo : List String) :
    Except Fault Spot :=
  match todo with
  | [] => .ok (.found dir .directory)
  | "/" :: rest => walk t purpose links dir rest
  | "." :: rest =>
    if purpose = .change && isLast rest then .ok .dots else walk t purpose links dir rest
  | ".." :: rest =>
    if purpose = .change && isLast rest then .ok .dots
    else if dir.isEmpty then .error .notFound
    else walk t purpose links dir.dropLast rest
  | name :: rest =>
    if maxNameLength < name.utf8ByteSize then .error .nameTooLong
    else if purpose = .change && isLast rest then .ok (.entry dir name !rest.isEmpty)
    else
      match t.find? (dir ++ [name]) with
      | none => if rest.isEmpty then .ok (.vacant dir name) else .error .notFound
      | some .directory => walk t purpose links (dir ++ [name]) rest
      | some (.file content mode) =>
        if rest.isEmpty then .ok (.found (dir ++ [name]) (.file content mode))
        else .error .notADirectory
      | some (.link target) =>
        match links with
        | 0 => .error .linkLoop
        | links + 1 =>
          if target.isAbsolute || target.text.isEmpty then .error .notFound
          else walk t purpose links dir (steps target ++ rest)
termination_by (links, todo.length)

def lookup (t : Tree) (purpose : Purpose) (p : Path) : Except Fault Spot :=
  if p.text.toList.contains '\x00' then
    .error ⟨.invalidInput, "file name contained an unexpected NUL byte"⟩
  else if p.text.isEmpty || p.isAbsolute then .error .notFound
  else if maxPathLength < p.text.utf8ByteSize then .error .nameTooLong
  else walk t purpose maxLinks [] (steps p)

end Tree

end RepoSeal
