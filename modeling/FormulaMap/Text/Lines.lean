/-
Lines of a text.

A line ends at a line feed, a carriage return, the two together, or one of the
other Unicode line boundaries: line tabulation, form feed, the file, group and
record separators, next line, and the line and paragraph separators.  A boundary
at the very end starts no further line.
-/
namespace FormulaMap
namespace Text

def isLineBoundary (c : Char) : Bool :=
  let n := c.toNat
  (0x0A ≤ n && n ≤ 0x0D) || (0x1C ≤ n && n ≤ 0x1E) || n == 0x85 || n == 0x2028 || n == 0x2029

/-- Lines without their ends; `line` is the part of the current line that has
been read, last character first. -/
def linesFrom (line : List Char) : List Char → List (List Char)
  | [] => if line.isEmpty then [] else [line.reverse]
  | '\r' :: '\n' :: rest => line.reverse :: linesFrom [] rest
  | c :: rest =>
    if isLineBoundary c then line.reverse :: linesFrom [] rest
    else linesFrom (c :: line) rest

def lines (s : String) : List String :=
  (linesFrom [] s.toList).map String.ofList

/-- Line ends written as a carriage return, alone or before a line feed, become
line feeds. -/
def unifyLineEnds : List Char → List Char
  | [] => []
  | '\r' :: '\n' :: rest => '\n' :: unifyLineEnds rest
  | c :: rest => (if c = '\r' then '\n' else c) :: unifyLineEnds rest

end Text
end FormulaMap
