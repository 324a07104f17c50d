/-
Numerals: the exact rational number that a literal of a formula stands for.

Spaces are ignored.  A numeral is a decimal or a quotient of two decimals, and a
decimal has an optional sign, digits of any script with an optional point, and
an optional exponent; an underscore may stand between two digits, and white
space around the whole.  A run of more digits than `maxDigits` is not read.
-/
import FormulaMap.Number.FloatText

namespace FormulaMap

/-- What reading a literal gives. -/
inductive Numeral where
  | value (q : Rat)
  | unreadable
  /-- The divisor of a quotient is zero; `sign` is that of the dividend. -/
  | zeroDivisor (sign : Int)
  deriving DecidableEq, Repr

namespace Numeral

/-- The longest run of digits that is converted to or from an integer. -/
def maxDigits : Nat := 4300

/-- A run of digits with single underscores between them, and what follows. -/
def grouped : List Char → List Char × List Char
  | [] => ([], [])
  | c :: cs =>
    if Text.isDecimal c then
      let (ds, rest) := grouped cs
      (c :: ds, rest)
    else ([], c :: cs)

def groups : Nat → List Char → List Char × List Char
  | 0, cs => grouped cs
  | n + 1, cs =>
    match grouped cs with
    | (d :: ds, '_' :: c :: rest) =>
      if Text.isDecimal c then
        let (es, tail) := groups n (c :: rest)
        (d :: ds ++ es, tail)
      else (d :: ds, '_' :: c :: rest)
    | other => other

/-- Digits, possibly none, with their underscores taken out. -/
def run (cs : List Char) : List Char × List Char := groups cs.length cs

def natOf? (ds : List Char) : Option Nat :=
  if maxDigits < ds.length then none else some (Text.decimalNat ds)

def exponentPart : List Char → Option (Int × List Char)
  | [] => some (0, [])
  | c :: cs =>
    if FloatText.isExponentMark c then
      let (negative, body) := FloatText.sign cs
      let (ds, rest) := run body
      if ds.isEmpty then none
      else (natOf? ds).map fun n => (if negative then -(n : Int) else n, rest)
    else some (0, c :: cs)

def assemble (negative : Bool) (whole fraction : List Char) (exponent : Int) : Option Rat := do
  let w ← natOf? whole
  let f ← natOf? fraction
  let unit := Nat.pow 10 fraction.length
  let q := mkRat (w * unit + f : Nat) unit
  let scaled := if 0 ≤ exponent then q * mkRat (Nat.pow 10 exponent.toNat) 1
    else q / mkRat (Nat.pow 10 (-exponent).toNat) 1
  return if negative then -scaled else scaled

def decimal? (text : List Char) : Option Rat := do
  let (negative, body) := FloatText.sign (text.dropWhile Text.isBlank)
  let (whole, afterWhole) := run body
  let (fraction, tail) := match afterWhole with
    | '.' :: rest => run rest
    | other => ([], other)
  guard !(whole ++ fraction).isEmpty
  let (exponent, rest) ← exponentPart tail
  guard (rest.all Text.isBlank)
  assemble negative whole fraction exponent

def signOf (q : Rat) : Int := if q.num < 0 then -1 else if q.num = 0 then 0 else 1

def read (s : String) : Numeral :=
  match (s.toList.filter (· ≠ ' ')).splitOn '/' with
  | [text] => match decimal? text with
    | some q => value q
    | none => unreadable
  | [dividend, divisor] => match decimal? dividend, decimal? divisor with
    | some p, some q => if q = 0 then zeroDivisor (signOf p) else value (p / q)
    | _, _ => unreadable
  | _ => unreadable

/-! ## Writing -/

/-- An integer in decimal, unless it has too many digits. -/
def integerText? (i : Int) : Option String :=
  let ds := Nat.repr i.natAbs
  if maxDigits < ds.length then none
  else some (if i < 0 then "-" ++ ds else ds)

/-- Lowest terms, without a denominator of one. -/
def text? (q : Rat) : Option String := do
  let n ← integerText? q.num
  if q.den = 1 then return n
  else return n ++ "/" ++ (← integerText? q.den)

/-- Why a number could not be written. -/
def tooLong : String :=
  "Exceeds the limit (4300 digits) for integer string conversion; " ++
  "use sys.set_int_max_str_digits() to increase the limit"

end Numeral
end FormulaMap
