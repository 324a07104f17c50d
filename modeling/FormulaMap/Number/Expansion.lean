/-
The exact decimal expansion of a float.

Every finite float has one, since a power of two in the denominator divides the
same power of ten.  No exponent and no trailing zero is written.
-/
import FormulaMap.Number.Binary64

namespace FormulaMap
namespace Expansion

/-- `n` in decimal, with zeros in front up to `width` digits. -/
def padded (width n : Nat) : List Char :=
  let ds := (Nat.repr n).toList
  List.replicate (width - ds.length) '0' ++ ds

def dropTrailingZeros (cs : List Char) : List Char :=
  (cs.reverse.dropWhile (· == '0')).reverse

/-- The digits of `m · 2 ^ e`.  For a negative exponent the fraction
`r / 2 ^ s` is `r · 5 ^ s / 10 ^ s`. -/
def ofScaled (m : Nat) (e : Int) : String :=
  if 0 ≤ e then Nat.repr (m * Nat.pow 2 e.toNat)
  else
    let s := (-e).toNat
    let fraction := dropTrailingZeros (padded s (m % Nat.pow 2 s * Nat.pow 5 s))
    Nat.repr (m / Nat.pow 2 s) ++ if fraction.isEmpty then "" else String.ofList ('.' :: fraction)

def ofFloat (x : Float) : String :=
  match Binary64.ofFloat x with
  | .nan => "nan"
  | .infinite negative => if negative then "-inf" else "inf"
  | .finite negative m e => (if negative then "-" else "") ++ ofScaled m e

end Expansion
end FormulaMap
