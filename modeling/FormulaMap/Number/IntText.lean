/-
Integers as text, and floats as integers.

A text stands for an integer when it is a sign and digits, with blanks around it
or a fraction of zeros behind it.  Underscores may stand alone between digits.
Zeros in front do not count, except after a minus sign, where they are refused.
A float stands for an integer when it is integral and of less than 64 bits.
-/
import FormulaMap.Number.Numeral

namespace FormulaMap
namespace IntText

/-! ## Texts -/

/-- A number without the zeros in front of it and the underscores among them.  One
zero stays when nothing else is left, and an underscore at the end is not hidden. -/
def dropLeadingZeros : List Char → List Char
  | '0' :: cs =>
    match cs.dropWhile fun c => c == '0' || c == '_' with
    | [] => if cs.getLast? = some '_' then '0' :: cs else ['0']
    | rest => rest
  | cs => cs

/-- The digits that count.  A minus sign takes part in the rule that an underscore
stands alone inside the text. -/
def digits? (negative : Bool) (whole : List Char) : Option (List Char) :=
  if negative then (FloatText.withoutSeparators? ('-' :: whole)).map (·.drop 1)
  else FloatText.withoutSeparators? (dropLeadingZeros whole)

/-- What follows the whole part: nothing, or a point and zeros. -/
def isZeroFraction : List Char → Bool
  | [] => true
  | _ :: zeros => !zeros.isEmpty && zeros.all (· == '0')

def read? (s : String) : Option Int := do
  let (negative, body) := FloatText.sign (Text.trimOf Text.layoutBlanks s.toList)
  guard (isZeroFraction (body.dropWhile (· ≠ '.')))
  let ds ← digits? negative (body.takeWhile (· ≠ '.'))
  guard (Text.isNumber ds && (ds.head? ≠ some '0' || ds.length = 1))
  return if negative then -(Text.decimalNat ds : Int) else Text.decimalNat ds

/-- Whether a text starts with more digits than are converted, a minus sign being
counted as one of them. -/
def isTooLong (s : String) : Bool :=
  let cs := s.toList
  let minus := cs.takeWhile (· == '-')
  let ds := (cs.drop minus.length).takeWhile Text.isAsciiDigit
  decide (minus.length ≤ 1) && ds.head? != some '0' &&
    decide (Numeral.maxDigits < minus.length + ds.length)

/-! ## Floats -/

/-- One more than the greatest integer of 64 bits. -/
def wordLimit : Nat := Nat.pow 2 63

/-- Whether an integer has 64 bits or less. -/
def isWord (i : Int) : Bool := decide (-(wordLimit : Int) ≤ i ∧ i < wordLimit)

/-- The integer that a float stands for: it lies strictly between the ends of what
64 bits hold. -/
def ofFloat? (x : Float) : Option Int :=
  (Binary64.toInt? x).filter fun i => decide (i.natAbs < wordLimit)

end IntText
end FormulaMap
