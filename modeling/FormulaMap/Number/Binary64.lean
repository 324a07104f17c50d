/-
Binary floating-point numbers of 64 bits, read and rounded exactly.

A finite number is `mantissa · 2 ^ exponent` with a sign.  `Binary64.ofFloat`
takes a `Float` apart and `nearest` goes the other way: it gives the float
nearest to an exact quotient of natural numbers, a tie going to the even
mantissa.  Everything between the two is arithmetic of `Nat` and `Int`.
-/

namespace FormulaMap

/-- What the 64 bits of a float stand for. -/
inductive Binary64 where
  | nan
  | infinite (negative : Bool)
  | finite (negative : Bool) (mantissa : Nat) (exponent : Int)
  deriving DecidableEq, Repr

namespace Binary64

def minExponent : Int := -1074

/-- A mantissa below this one belongs to a subnormal number. -/
def hiddenBit : Nat := Nat.pow 2 52

def ofBits (bits : Nat) : Binary64 :=
  let negative := bits.testBit 63
  let field := bits / hiddenBit % 2048
  let fraction := bits % hiddenBit
  if field = 2047 then if fraction = 0 then infinite negative else nan
  else if field = 0 then finite negative fraction minExponent
  else finite negative (hiddenBit + fraction) (field - 1075)

def ofFloat (x : Float) : Binary64 := ofBits x.toBits.toNat

/-- The integer nearest to `n / d`, a tie going to the even one. -/
def divNearest (n d : Nat) : Nat :=
  let q := n / d
  let r := n % d
  if 2 * r < d then q
  else if d < 2 * r then q + 1
  else if q % 2 = 0 then q else q + 1

/-- `n · 2 ^ e / d` as a pair of natural numbers. -/
def scale (n d : Nat) (e : Int) : Nat × Nat :=
  if 0 ≤ e then (n * Nat.pow 2 e.toNat, d) else (n, d * Nat.pow 2 (-e).toNat)

/-- The exponent at which the mantissa of `n / d` has 53 bits, or the least
exponent when that one is smaller. -/
def exponentOf (n d : Nat) : Int :=
  let guess : Int := (Nat.log2 n : Int) - (Nat.log2 d : Int)
  let (a, b) := scale n d (-guess)
  max minExponent (if b ≤ a then guess - 52 else guess - 53)

/-- The bits, sign apart, of the float nearest to `n / d`.  Consecutive floats
have consecutive bits, so a mantissa that rounds up to the next power of two
needs no case of its own, and what lies above the largest float is infinite. -/
def nearestBits (n d : Nat) : Nat :=
  if n = 0 then 0
  else
    let e := exponentOf n d
    let (a, b) := scale n d (-e)
    min ((e - minExponent).toNat * hiddenBit + divNearest a b) (2047 * hiddenBit)

def nearest (negative : Bool) (n d : Nat) : Float :=
  Float.ofBits (UInt64.ofNat (nearestBits n d + if negative then Nat.pow 2 63 else 0))

/-- The float nearest to `digits · 10 ^ exponent`.  Exponents at which the result
can only be zero or infinite are decided without raising ten to them. -/
def nearestDecimal (negative : Bool) (digits : Nat) (exponent : Int) : Float :=
  if digits = 0 then nearest negative 0 1
  else if 400 < exponent then nearest negative (Nat.pow 2 1024) 1
  else if exponent + (Nat.log2 digits / 3 : Nat) < -400 then nearest negative 0 1
  else if 0 ≤ exponent then nearest negative (digits * Nat.pow 10 exponent.toNat) 1
  else nearest negative digits (Nat.pow 10 (-exponent).toNat)

def nearestInt (i : Int) : Float := nearest (i < 0) i.natAbs 1

def isFinite (x : Float) : Bool :=
  match ofFloat x with
  | finite .. => true
  | _ => false

/-- The integer a float is equal to, if there is one. -/
def toInt? (x : Float) : Option Int :=
  match ofFloat x with
  | finite negative m e =>
    let (a, b) := scale m 1 e
    if a % b = 0 then some (if negative then -(a / b : Nat) else (a / b : Nat)) else none
  | _ => none

end Binary64
end FormulaMap
