/-
Quoted texts, as messages show them.

A text stands between apostrophes, or between quotation marks when it holds an
apostrophe and no quotation mark.  The delimiter and the backslash are escaped;
tab, line feed and carriage return have letters; every other character that is
not printable is written by its code point in two, four or eight hexadecimal
digits, whichever is the first to fit.
-/
import FormulaMap.Text.Printable

namespace FormulaMap
namespace Text

/-- The last `width` hexadecimal digits of `n`, lower case. -/
def hex (width n : Nat) : List Char :=
  (List.range width).reverse.map fun i => Nat.digitChar (n / Nat.pow 16 i % 16)

def quotedChar (delimiter c : Char) : List Char :=
  if c = delimiter ∨ c = '\\' then ['\\', c]
  else if c = '\t' then ['\\', 't']
  else if c = '\n' then ['\\', 'n']
  else if c = '\r' then ['\\', 'r']
  else if isPrintable c then [c]
  else if c.toNat < 0x100 then '\\' :: 'x' :: hex 2 c.toNat
  else if c.toNat < 0x10000 then '\\' :: 'u' :: hex 4 c.toNat
  else '\\' :: 'U' :: hex 8 c.toNat

def delimiter (cs : List Char) : Char :=
  if cs.contains '\'' && !cs.contains '"' then '"' else '\''

def quoted (s : String) : String :=
  let cs := s.toList
  let d := delimiter cs
  String.ofList (d :: cs.flatMap (quotedChar d) ++ [d])

end Text
end FormulaMap
