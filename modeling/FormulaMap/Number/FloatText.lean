/-
Floats as text, and text as floats.

Writing gives the shortest decimal that reads back, positional from `10 ^ -4` up
to `10 ^ 16` and with an exponent of at least two digits outside.  Reading knows
one grammar (sign, digits with a point, exponent, and the words for infinity and
for no number); the two readers in use differ in what they allow around it and
between digits.
-/
import FormulaMap.Number.Shortest
import FormulaMap.Number.Expansion
import FormulaMap.Text.Digit

namespace FormulaMap
namespace FloatText

/-! ## Writing -/

/-- Where positional writing begins and ends, by the exponent of the leading digit. -/
def positionalFrom : Int := -4
def positionalBelow : Int := 16

def exponentText (e : Int) : String :=
  (if e < 0 then "e-" else "e+") ++ String.ofList (Expansion.padded 2 e.natAbs)

def ofDecimal (d : Decimal) : String :=
  let ds := (Nat.repr d.digits).toList
  let lead := d.exponent + ds.length - 1
  if lead < positionalFrom ∨ positionalBelow ≤ lead then
    String.ofList (ds.take 1 ++ if ds.length = 1 then [] else '.' :: ds.drop 1) ++ exponentText lead
  else if 0 ≤ d.exponent then
    String.ofList (ds ++ List.replicate d.exponent.toNat '0') ++ ".0"
  else if 0 ≤ lead then
    String.ofList (ds.take (lead + 1).toNat ++ '.' :: ds.drop (lead + 1).toNat)
  else
    String.ofList ('0' :: '.' :: List.replicate (-lead - 1).toNat '0' ++ ds)

def write (x : Float) : String :=
  match Binary64.ofFloat x with
  | .nan => "NaN"
  | .infinite negative => if negative then "-Infinity" else "Infinity"
  | .finite negative m e =>
    (if negative then "-" else "") ++ ofDecimal (Decimal.shortest m e)

/-! ## Reading -/

def lower (cs : List Char) : List Char := cs.map Char.toLower

/-- A sign in front, and what follows it. -/
def sign : List Char → Bool × List Char
  | '-' :: cs => (true, cs)
  | '+' :: cs => (false, cs)
  | cs => (false, cs)

def isExponentMark (c : Char) : Bool := c == 'e' || c == 'E'

/-- An exponent part: nothing at all counts as zero. -/
def exponent? : List Char → Option Int
  | [] => some 0
  | c :: cs =>
    if isExponentMark c then
      let (negative, ds) := sign cs
      if Text.isNumber ds then
        some (if negative then -(Text.decimalNat ds : Int) else Text.decimalNat ds)
      else none
    else none

/-- The number `whole.fraction` times ten to the exponent part `tail`. -/
def positional? (negative : Bool) (whole fraction tail : List Char) : Option Float :=
  if (whole ++ fraction).isEmpty then none
  else (exponent? tail).map fun e =>
    Binary64.nearestDecimal negative (Text.decimalNat (whole ++ fraction)) (e - fraction.length)

/-- The common grammar: ASCII digits, no blanks, no separators. -/
def plain? (cs : List Char) : Option Float :=
  let (negative, body) := sign cs
  if ["inf", "infinity"].contains (String.ofList (lower body)) then
    some (Binary64.nearestDecimal negative 1 999)
  else if lower body = ['n', 'a', 'n'] then some (0.0 / 0.0)
  else
    let whole := body.takeWhile Text.isAsciiDigit
    match body.dropWhile Text.isAsciiDigit with
    | '.' :: rest =>
      positional? negative whole (rest.takeWhile Text.isAsciiDigit) (rest.dropWhile Text.isAsciiDigit)
    | tail => positional? negative whole [] tail

/-- Underscores that stand alone inside the text are dropped. -/
def withoutSeparators? (cs : List Char) : Option (List Char) :=
  if cs.head? = some '_' ∨ cs.getLast? = some '_' ∨ (cs.zip cs.tail).contains ('_', '_') then none
  else some (cs.filter (· ≠ '_'))

/-- A numeric text in a record field: either blanks around it or single underscores
inside it are allowed, but not both. -/
def readField? (s : String) : Option Float :=
  let cs := s.toList
  match plain? (Text.trimOf Text.layoutBlanks cs) with
  | some x => some x
  | none => (withoutSeparators? cs).bind plain?

/-- Whether every underscore stands between two digits. -/
def separatorsOk : Option Char → List Char → Bool
  | previous, [] => previous != some '_'
  | previous, c :: cs =>
    (if c = '_' then (previous.map Text.isAsciiDigit).getD false
     else previous != some '_' || Text.isAsciiDigit c) && separatorsOk (some c) cs

/-- A decimal digit of any script as the ASCII digit of the same value. -/
def asciiDigit (c : Char) : Char :=
  match Text.decimalValue? c with
  | some n => Nat.digitChar n
  | none => c

/-- A number on a command line or in the environment: blanks around it, digits of
any script, and underscores between digits are allowed. -/
def readArgument? (s : String) : Option Float :=
  let cs := (Text.trimOf Text.layoutBlanks s.toList).map asciiDigit
  if separatorsOk none cs then plain? (cs.filter (· ≠ '_')) else none

end FloatText
end FormulaMap
