/-
The shortest decimal that reads back as a given float.

The reals that round to `m · 2 ^ e` form an interval, which holds its ends when
`m` is even.  On the grid of the multiples of `10 ^ k` only the two neighbours
of the float can be the nearest point inside that interval.  `shortest` tries
one digit, two digits, and so on, and takes the first grid with a point inside;
of two such points it takes the nearer.
-/
import FormulaMap.Number.Binary64

namespace FormulaMap

/-- The decimal `digits · 10 ^ exponent`. -/
structure Decimal where
  digits : Nat
  exponent : Int
  deriving DecidableEq, Repr

namespace Decimal

/-- The reals that round to a float, in quarters of its unit in the last place:
`low` and `high` are the ends and `value` is the float itself. -/
structure Interval where
  low : Nat
  value : Nat
  high : Nat
  /-- One quarter unit is `2 ^ exponent`. -/
  exponent : Int
  closed : Bool

/-- Below a power of two the floats are twice as dense as above it. -/
def Interval.ofScaled (m : Nat) (e : Int) : Interval where
  low := if m = Binary64.hiddenBit ∧ Binary64.minExponent < e then 4 * m - 1 else 4 * m - 2
  value := 4 * m
  high := 4 * m + 2
  exponent := e - 2
  closed := m % 2 = 0

/-- `n · 2 ^ e` and `c · 10 ^ k` brought to one denominator. -/
def common (n : Nat) (e : Int) (c : Nat) (k : Int) : Nat × Nat :=
  (n * Nat.pow 2 e.toNat * Nat.pow 10 (-k).toNat, c * Nat.pow 10 k.toNat * Nat.pow 2 (-e).toNat)

def Interval.holds (i : Interval) (c : Nat) (k : Int) : Bool :=
  let (low, x) := common i.low i.exponent c k
  let (high, _) := common i.high i.exponent c k
  if i.closed then low ≤ x && x ≤ high else low < x && x < high

/-- The exponent of the leading decimal digit of `n · 2 ^ e`. -/
def leading (n : Nat) (e : Int) : Int :=
  let guess := ((Nat.log2 n : Int) + e) * 30103 / 100000
  let atLeast (k : Int) : Bool := let (v, x) := common n e 1 k; decide (x ≤ v)
  if atLeast (guess + 1) then guess + 1 else if atLeast guess then guess else guess - 1

/-- The grid point to take at `10 ^ k`, if one lies in the interval. -/
def onGrid (i : Interval) (k : Int) : Option Decimal :=
  let (v, unit) := common i.value i.exponent 1 k
  let below := v / unit
  match i.holds below k, i.holds (below + 1) k with
  | true, true =>
    let r := v % unit
    some ⟨if 2 * r < unit ∨ (2 * r = unit ∧ below % 2 = 0) then below else below + 1, k⟩
  | true, false => some ⟨below, k⟩
  | false, true => some ⟨below + 1, k⟩
  | false, false => none

def dropZeros : Nat → Decimal → Decimal
  | 0, d => d
  | n + 1, d =>
    if d.digits % 10 = 0 ∧ d.digits ≠ 0 then dropZeros n ⟨d.digits / 10, d.exponent + 1⟩ else d

/-- Seventeen digits tell every two floats apart. -/
def maxDigits : Nat := 17

def shortest (m : Nat) (e : Int) : Decimal :=
  if m = 0 then ⟨0, 0⟩
  else
    let i := Interval.ofScaled m e
    let top := leading i.value i.exponent
    let found := (List.range maxDigits).findSome? fun (n : Nat) => onGrid i (top - (n : Int))
    dropZeros maxDigits (found.getD ⟨m, e⟩)

end Decimal
end FormulaMap
