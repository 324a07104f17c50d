/-
White space: which characters count, trimming, and splitting into words.

`blanks` holds the characters whose bidirectional class is a separator or white
space, together with the space separators.  `layoutBlanks` is the smaller
Unicode property White_Space, which leaves out the four information separators
U+001C to U+001F.
-/
import FormulaMap.Text.CharSet

namespace FormulaMap
namespace Text

def blanks : CharSet :=
  [(9, 13), (28, 32), (133, 133), (160, 160), (5760, 5760), (8192, 8202),
   (8232, 8233), (8239, 8239), (8287, 8287), (12288, 12288)]

def layoutBlanks : CharSet :=
  (blanks.filter fun r => r.1 ≠ 28) ++ [(32, 32)]

def isBlank (c : Char) : Bool := blanks.has c

/-- The characters between the first and the last one outside `s`. -/
def trimOf (s : CharSet) (cs : List Char) : List Char :=
  ((cs.dropWhile s.has).reverse.dropWhile s.has).reverse

def trimChars (cs : List Char) : List Char := trimOf blanks cs

def trim (s : String) : String := String.ofList (trimChars s.toList)

/-- A text is blank when trimming leaves nothing. -/
def allBlank (s : String) : Bool := s.toList.all isBlank

/-- Maximal runs of characters that are not white space. -/
def words (cs : List Char) : List (List Char) :=
  (cs.splitOnP isBlank).filter fun w => !w.isEmpty

/-- The words of a text with one space between neighbours. -/
def squeeze (s : String) : String :=
  String.ofList (List.intercalate [' '] (words s.toList))

end Text
end FormulaMap
