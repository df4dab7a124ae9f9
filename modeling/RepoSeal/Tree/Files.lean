import RepoSeal.Stream.Source
import RepoSeal.Tree.Basic

/-!
# RepoSeal — file operations on a tree

Asking for what a path leads to, making directories and putting files in place, each as a function of
the tree. An operation that fails leaves the tree as it was, except that directories made on the way
to a path stay.
-/

namespace RepoSeal

/-- What a path leads to, links followed. -/
inductive Presence
  | absent
  | file
  | directory
deriving DecidableEq, Repr

/-- What a name in a directory stands for, links not followed. -/
inductive EntryKind
  | file
  | directory
  | link
deriving DecidableEq, Repr

namespace Tree

/-- The permission bits of a file that is written in the usual way. -/
def plainMode : Nat := 0o644

/-- The permission bits of a file for its owner alone. -/
def privateMode : Nat := 0o600

/-! ## Asking -/

/-- Whether a path leads to a file, to a directory or to nothing that can be reached. -/
def presence (t : Tree) (p : Path) : Presence :=
  match t.lookup .use p with
  | .ok (.found _ .directory) => .directory
  | .ok (.found _ _) => .file
  | _ => .absent

def contentsAt (t : Tree) (p : Path) : Except Fault Bytes :=
  match t.lookup .use p with
  | .error fault => .error fault
  | .ok (.found _ (.file content _)) => .ok content
  | .ok (.found _ .directory) => .error .isADirectory
  | .ok _ => .error .notFound

/-- The file at a path, opened for reading: a directory can be opened, but not read. -/
def openFile (t : Tree) (p : Path) : Except Fault Source :=
  match t.lookup .use p with
  | .error fault => .error fault
  | .ok (.found _ (.file content _)) => .ok { rest := content }
  | .ok (.found _ .directory) => .ok { rest := [], ending := some .isADirectory }
  | .ok _ => .error .notFound

def kindOf : Node → EntryKind
  | .directory => .directory
  | .file _ _ => .file
  | .link _ => .link

/-- The names in the directory at a path, with their kinds. -/
def listDirectory (t : Tree) (p : Path) : Except Fault (List (String × EntryKind)) :=
  match t.lookup .use p with
  | .error fault => .error fault
  | .ok (.found at_ .directory) => .ok ((t.childrenOf at_).map fun (n, node) => (n, kindOf node))
  | .ok (.found _ _) => .error .notADirectory
  | .ok _ => .error .notFound

/-! ## Directories -/

def makeDirectory (t : Tree) (p : Path) : Except Fault Tree :=
  match t.lookup .change p with
  | .error fault => .error fault
  | .ok (.entry dir name _) =>
    if (t.find? (dir ++ [name])).isSome then .error .alreadyExists
    else .ok (t.put (dir ++ [name]) .directory)
  | .ok _ => .error .alreadyExists

/-- Makes the directory at `here`, which has the given parts, and the missing ones on the way. -/
def makeDirectoriesOn (t : Tree) (here : Path) (parts : List String) : Except Fault Unit × Tree :=
  if _h : parts = [] then (.ok (), t)
  else
    match t.makeDirectory here with
    | .ok t' => (.ok (), t')
    | .error fault =>
      if fault.kind = .notFound then
        match makeDirectoriesOn t here.parent parts.dropLast with
        | (.error fault', t') => (.error fault', t')
        | (.ok _, t') =>
          match t'.makeDirectory here with
          | .ok t'' => (.ok (), t'')
          | .error fault' =>
            if t'.presence here = .directory then (.ok (), t') else (.error fault', t')
      else if t.presence here = .directory then (.ok (), t)
      else (.error fault, t)
termination_by parts.length
decreasing_by
  have := List.length_pos_iff.2 _h
  simp only [List.length_dropLast]
  omega

/-- Makes the directory at a path, and the missing ones on the way to it. -/
def makeDirectories (t : Tree) (p : Path) : Except Fault Unit × Tree :=
  if p.isAbsolute && p.parts ≠ [] then (.error .notFound, t)
  else makeDirectoriesOn t p p.parts

/-! ## Files -/

/-- The directory in which a path lies. -/
def holderOf (p : Path) : Path :=
  match p.parts with
  | [] => ⟨"."⟩
  | [_] => if p.isAbsolute then ⟨"/"⟩ else ⟨"."⟩
  | _ => p.parent

/-- Puts a complete private file at a path in one step: what was there before is replaced, unless it
is a directory. -/
def replaceFile (t : Tree) (p : Path) (content : Bytes) : Except Fault Tree :=
  match t.presence (holderOf p) with
  | .absent => .error .notFound
  | .file => .error .notADirectory
  | .directory =>
    match t.lookup .change p with
    | .error fault => .error fault
    | .ok (.entry dir name slash) =>
      if slash then .error .notADirectory
      else if t.find? (dir ++ [name]) = some .directory then .error .isADirectory
      else .ok (t.put (dir ++ [name]) (.file content privateMode))
    | .ok _ => .error .busy

end Tree

end RepoSeal
