/-!
# RepoSeal — columns

Texts and numbers that are written below one another are filled up with blanks to the width of their
column; what is wider stays as it is.
-/

namespace RepoSeal.Text

def leftIn (width : Nat) (text : String) : String :=
  String.ofList (text.toList ++ List.replicate (width - text.length) ' ')

def rightIn (width n : Nat) : String :=
  let digits := (toString n).toList
  String.ofList (List.replicate (width - digits.length) ' ' ++ digits)

end RepoSeal.Text
