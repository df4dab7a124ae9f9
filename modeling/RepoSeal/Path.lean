import RepoSeal.Bytes

/-!
# RepoSeal — paths

A path is a text whose parts are separated by slashes. Its text is kept as given, because messages
show it; what the path means is decided by its parts alone.
-/

namespace RepoSeal

structure Path where
  text : String
deriving DecidableEq, Inhabited

namespace Path

instance : ToString Path := ⟨Path.text⟩

def isAbsolute (p : Path) : Bool := p.text.toList.head? == some '/'

/-- The path of `name` below `p`: an absolute `name` stands for itself, and a slash is put between
the two unless `p` is empty or already ends in one. -/
def join (p : Path) (name : String) : Path :=
  if (Path.mk name).isAbsolute then ⟨name⟩
  else if p.text.isEmpty || p.text.toList.getLast? == some '/' then ⟨p.text ++ name⟩
  else ⟨p.text ++ "/" ++ name⟩

instance : HDiv Path String Path := ⟨join⟩

/-- The characters of a text cut at every slash. -/
def splitSlash : List Char → List (List Char)
  | [] => [[]]
  | c :: rest =>
    match c, splitSlash rest with
    | '/', pieces => [] :: pieces
    | c, piece :: pieces => (c :: piece) :: pieces
    | c, [] => [[c]]

/-- The named parts of a path, in order. Empty parts and single dots name nothing. -/
def parts (p : Path) : List String :=
  (splitSlash p.text.toList).filterMap fun cs =>
    if cs.isEmpty || cs == ['.'] then none else some (String.ofList cs)

/-- What stands behind the last named part: a dot, or else slashes, or else nothing. -/
def ending (p : Path) : List String :=
  match (splitSlash p.text.toList).reverse with
  | [] :: pieces => if (pieces.dropWhile List.isEmpty).head? = some ['.'] then ["."] else ["/"]
  | ['.'] :: _ => ["."]
  | _ => []

/-- Whether a piece between slashes names something. -/
def isNamed (piece : List Char) : Bool := !(piece.isEmpty || piece == ['.'])

/-- The pieces up to the last one that names something. -/
def upToNamed (pieces : List (List Char)) : List (List Char) :=
  (pieces.reverse.dropWhile fun piece => !isNamed piece).reverse

/-- The path as it stands before its last named part. -/
def parent (p : Path) : Path :=
  ⟨String.ofList (['/'].intercalate (upToNamed (upToNamed (splitSlash p.text.toList)).dropLast))⟩

/-- The path whose text begins at home: `~/rest` is `rest` below the home directory, and any other
path stays as it is. A missing home counts as the empty path. -/
def expandHome (home : Option String) (p : Path) : Path :=
  match p.text.toList with
  | '~' :: '/' :: rest => Path.mk (home.getD "") / String.ofList rest
  | _ => p

end Path

end RepoSeal
