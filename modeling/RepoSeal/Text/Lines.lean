/-!
# RepoSeal — white space and lines

White space is what Unicode gives that property. A line ends at a line feed, and a carriage return in
front of it belongs to the end of the line.
-/

namespace RepoSeal.Text

def isWhiteSpace (c : Char) : Bool :=
  let n := c.toNat
  (0x9 ≤ n && n ≤ 0xd) || n = 0x20 || n = 0x85 || n = 0xa0 || n = 0x1680 ||
    (0x2000 ≤ n && n ≤ 0x200a) || n = 0x2028 || n = 0x2029 || n = 0x202f || n = 0x205f ||
    n = 0x3000

/-- Characters without the white space at both ends. -/
def trimChars (cs : List Char) : List Char :=
  ((cs.dropWhile isWhiteSpace).reverse.dropWhile isWhiteSpace).reverse

/-- A text without the white space at both ends. -/
def trim (s : String) : String := String.ofList (trimChars s.toList)

/-- The pieces between line feeds. What follows the last line feed is a piece too, even if nothing
does. -/
def splitFeeds : List Char → List (List Char)
  | [] => [[]]
  | c :: rest =>
    match c, splitFeeds rest with
    | '\n', pieces => [] :: pieces
    | c, piece :: pieces => (c :: piece) :: pieces
    | c, [] => [[c]]

/-- The lines of a text, without their ends. -/
def lines (s : String) : List String :=
  let pieces := splitFeeds s.toList
  let last := pieces.getLast?.getD []
  let ended := pieces.dropLast.map fun cs =>
    if cs.getLast? = some '\r' then cs.dropLast else cs
  (ended ++ if last.isEmpty then [] else [last]).map String.ofList

end RepoSeal.Text
